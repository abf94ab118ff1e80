import IqTransmit.Proofs.Engine.Lively
import IqTransmit.Proofs.Sink.Accounting
import IqTransmit.Proofs.Sink.Delivery

/-!
A stop with an engine that lives for as long as its stream. If it makes at least one transfer at
each wait, every wait either ends or sends a slot, so that a stop needs no more waits than there are
slots to send, one for the end of the stream, and those that the engine takes to come to rest. What
is sent meanwhile is what was queued, in order and without an underrun, and the end of the stream
comes last.
-/

namespace IqTransmit

variable {E : Type}

/-! ## A stop under way -/

/-- What is given to a stop from `o`: ring and engine agree on the size of a slot, a batch is no
more than a full ring, and there are pauses enough, in time, in each of which the engine moves. -/
structure Attended (size batch closing : Nat) (o : Progress E) : Prop where
  slotSize_eq : o.sink.feed.ring.slotSize = size
  batch_le : batch ≤ o.sink.feed.ring.capacity
  pauses : ∀ pause ∈ o.pauses,
    pause.InTime o.sink.config.stopTimeout ∧ OnlyEngine pause.moves ∧ pause.moves ≠ []
  enough : o.sink.feed.ring.len + 7 + closing ≤ o.pauses.length

/-- A stop from `o` is at `p`, with `pauses` still to come and `spent` at most behind it. -/
structure Course (o : Progress E) (pauses : List Pause) (spent : Nat) (p : Progress E) : Prop where
  taken : ∃ taken, o.pauses = taken ++ pauses ∧ taken.length ≤ spent
  pauses_eq : p.pauses = pauses
  gaps_eq : p.gaps = o.gaps
  config_eq : p.sink.config = o.sink.config

/-- It has queued `pushed`, and the engine was given `popped`, a slot at least for each pause. -/
structure Going (ready : E → Prop) (o : Progress E) (pauses : List Pause)
    (pushed popped : List Slot) (p : Progress E) : Prop
    extends Course o pauses popped.length p where
  served : o.sink.feed.Served p.sink.feed pushed popped
  engine : ∃ engine, p.sink.engine = some engine ∧ ready engine

/-- The engine was given `popped`, which was all there was, and then was told of the end. It is to
move `k` times more. -/
structure Told (size closing : Nat) (told : Nat → E → Prop) (o : Progress E) (pauses : List Pause)
    (pushed popped : List Slot) (k : Nat) (p : Progress E) : Prop
    extends Course o pauses (popped.length + 1 + (closing - k)) p where
  served : ∃ feed, o.sink.feed.Served feed pushed popped ∧ feed.ring.len = 0 ∧
    p.sink.feed = feed.note (.silent .engine .terminate size)
  engine : ∃ engine, p.sink.engine = some engine ∧ told k engine
  left_le : k ≤ closing

section Stop

variable {size batch closing k : Nat} {ending : Except String Unit}
variable {alive ready : E → Prop} {told : Nat → E → Prop}
variable {o p : Progress E} {pauses : List Pause} {pushed popped : List Slot}

open Call (Ends never bind_of_ok waitThrough_rule sink_eq)

/-- A pause is behind it, during which engine and feed have changed. -/
theorem Course.pause {spent more : Nat} {next : Pause} {rest : List Pause}
    (h : Course o (next :: rest) spent p) (engine : Option E) (feed : Feed)
    (hmore : spent + 1 ≤ more) :
    Course o rest more { p with sink := { p.sink with engine, feed }, pauses := rest } := by
  obtain ⟨taken, htaken, hle⟩ := h.taken
  refine ⟨⟨taken ++ [next], ?_, ?_⟩, rfl, h.gaps_eq, h.config_eq⟩
  · rw [htaken, List.append_assoc, List.singleton_append]
  · rw [List.length_append, List.length_singleton]
    omega

theorem Course.next_mem {spent : Nat} {next : Pause} {rest : List Pause}
    (h : Course o (next :: rest) spent p) : next ∈ o.pauses := by
  obtain ⟨taken, htaken, _⟩ := h.taken
  rw [htaken]
  exact List.mem_append_right _ List.mem_cons_self

/-- A stop that has not queued its last slots has sent fewer slots than there are pauses. -/
theorem Going.pauses_ne_nil (hg : Going ready o pauses pushed popped p)
    (ho : Attended size batch closing o) (hpushed : pushed.length ≤ 6) : pauses ≠ [] := by
  rintro rfl
  obtain ⟨taken, htaken, hle⟩ := hg.taken
  have hlen := hg.served.length_eq_add
  have henough := ho.enough
  rw [htaken, List.append_nil] at henough
  omega

/-- While the engine comes to rest there is a pause for each of its moves. -/
theorem Told.pauses_ne_nil (ht : Told size closing told o pauses pushed popped k p)
    (ho : Attended size batch closing o) (hpushed : pushed.length ≤ 6) (hk : 0 < k) :
    pauses ≠ [] := by
  rintro rfl
  obtain ⟨taken, htaken, hle⟩ := ht.taken
  obtain ⟨feed, hserved, _⟩ := ht.served
  have hlen := hserved.length_eq_add
  have henough := ho.enough
  have hleft := ht.left_le
  rw [htaken, List.append_nil] at henough
  omega

variable [TransferEngine E]

/-- An engine that lives and has just been asked, and that drains in all of the pauses. -/
def Primed (alive : E → Prop) (size batch : Nat) (o : Progress E) (pauses : List Pause) (e : E) :
    Prop :=
  alive e ∧ Drains size batch o.sink.config.stopTimeout pauses e

/-- An engine that lives and does so once it is asked. -/
def Willing (alive : E → Prop) (size batch : Nat) (o : Progress E) (pauses : List Pause) (e : E) :
    Prop :=
  alive e ∧ Drains size batch o.sink.config.stopTimeout pauses (TransferEngine.poll e).2

/-- The engine streams, and is asked so before each pause. -/
theorem Going.asked (h : Lively size closing ending alive told)
    (hg : Going (Willing alive size batch o pauses) o pauses pushed popped p) :
    Ends Call.askEngine p (fun b q => b = true ∧ q.sink.feed = p.sink.feed ∧
      Going (Primed alive size batch o pauses) o pauses pushed popped q) never := by
  obtain ⟨engine, hengine, halive, hdrains⟩ := hg.engine
  obtain ⟨after, hpoll, hafter⟩ := h.poll_alive engine halive
  rw [hpoll] at hdrains
  have hask : Call.askEngine p =
      .ok true { p with sink := { p.sink with engine := some after } } := by
    simp only [Call.askEngine, hengine, hpoll]
  exact .of_ok hask ⟨rfl, rfl, ⟨hg.taken, hg.pauses_eq, hg.gaps_eq, hg.config_eq⟩, hg.served,
    after, rfl, hafter, hdrains⟩

/-- Told of the end, it streams until it has come to rest. -/
theorem Told.asked (h : Lively size closing ending alive told)
    (ht : Told size closing told o pauses pushed popped k p) :
    Ends Call.askEngine p (fun b q => b = decide (0 < k) ∧
      Told size closing told o pauses pushed popped k q) never := by
  obtain ⟨engine, hengine, htold⟩ := ht.engine
  obtain ⟨after, hpoll, hafter⟩ := h.poll_told k engine htold
  have hask : Call.askEngine p =
      .ok (decide (0 < k)) { p with sink := { p.sink with engine := some after } } := by
    simp only [Call.askEngine, hengine, hpoll]
  exact .of_ok hask ⟨rfl, ⟨ht.taken, ht.pauses_eq, ht.gaps_eq, ht.config_eq⟩, ht.served,
    ⟨after, rfl, hafter⟩, ht.left_le⟩

/-- A pause sends as many slots as the engine makes transfers, or all there are and then the end. -/
theorem Going.pause (h : Lively size closing ending alive told)
    (ho : Attended size batch closing o) {next : Pause} {rest : List Pause}
    (hg : Going (Primed alive size batch o (next :: rest)) o (next :: rest) pushed popped p)
    (hstop : p.sink.feed.stopping = true ∨ batch ≤ p.sink.feed.ring.len) :
    Ends (Call.takePause o.sink.config.stopTimeout next rest) p
      (fun _ q => (∃ popped, Going (Willing alive size batch o rest) o rest pushed popped q ∧
          q.sink.feed.stopping = p.sink.feed.stopping) ∨
        p.sink.feed.ring.len < batch ∧
          ∃ popped k, Told size closing told o rest pushed popped k q) never := by
  obtain ⟨engine, hengine, halive, htime, honly, hnext⟩ := hg.engine
  have hsize := hg.served.slotSize_eq.trans ho.slotSize_eq
  obtain ⟨n, last, hpulls, hends⟩ := h.moveAll_alive (p := { p with pauses := rest }) honly
    hengine halive hg.served.sound hsize
  obtain ⟨hpos, hbatch, hrest⟩ := hnext n last hpulls
  have htake := Call.takePause_of_inTime htime rest p
  rcases hends with ⟨feed, sent, hlast, hserved, hlen, hsame, hrun⟩ | ⟨hless, hends⟩
  · have hmore : popped.length + 1 ≤ (popped ++ sent).length := by
      rw [List.length_append]
      omega
    have hcourse := hg.toCourse.pause (some last) feed hmore
    refine .of_ok (htake.trans hrun) (.inl ⟨popped ++ sent, ⟨hcourse, ?_, ?_⟩, hsame⟩)
    · simpa using hg.served.trans hserved
    · exact ⟨last, rfl, hlast, hrest⟩
  · replace hless : p.sink.feed.ring.len < n := hless
    obtain ⟨k, hk, after, feed, sent, htold, hserved, hnone, hrun⟩ :=
      hends (hstop.resolve_right (by omega))
    have hmore : popped.length + 1 ≤ (popped ++ sent).length + 1 + (closing - k) := by
      rw [List.length_append]
      omega
    have hcourse := hg.toCourse.pause (some after)
      (feed.note (.silent .engine .terminate size)) hmore
    refine .of_ok (htake.trans hrun) (.inr ⟨hless.trans_le hbatch, popped ++ sent, k, hcourse,
      ⟨feed, ?_, hnone, rfl⟩, ⟨after, rfl, htold⟩, hk⟩)
    simpa using hg.served.trans hserved

/-- A pause brings an engine that was told of the end nearer to its rest. -/
theorem Told.pause (h : Lively size closing ending alive told) (ho : Attended size batch closing o)
    {next : Pause} {rest : List Pause}
    (ht : Told size closing told o (next :: rest) pushed popped k p) (hk : 0 < k) :
    Ends (Call.takePause o.sink.config.stopTimeout next rest) p
      (fun _ q => ∃ k, Told size closing told o rest pushed popped k q) never := by
  obtain ⟨engine, hengine, htold⟩ := ht.engine
  obtain ⟨htime, honly, hmoves⟩ := ho.pauses next ht.next_mem
  have hpos := List.length_pos_iff.mpr hmoves
  have hleft := ht.left_le
  obtain ⟨after, hafter, hrun⟩ :=
    h.moveAll_told (p := { p with pauses := rest }) honly hengine htold
  have hmore : popped.length + 1 + (closing - k) + 1 ≤
      popped.length + 1 + (closing - (k - next.moves.length)) := by omega
  have hcourse := ht.toCourse.pause (some after) p.sink.feed hmore
  exact .of_ok ((Call.takePause_of_inTime htime rest p).trans hrun)
    ⟨k - next.moves.length, hcourse, ht.served, ⟨after, rfl, hafter⟩, (Nat.sub_le _ _).trans hleft⟩

/-- A wait for room finds it: nobody else takes it, and the engine sends a slot in each pause. -/
theorem Going.awaitRoom (h : Lively size closing ending alive told)
    (ho : Attended size batch closing o)
    (hg : Going (Willing alive size batch o pauses) o pauses pushed popped p)
    (hpushed : pushed.length ≤ 6) :
    Ends Call.awaitRoomToStop p
      (fun _ q => ∃ pauses popped,
        Going (Willing alive size batch o pauses) o pauses pushed popped q ∧
          q.sink.feed.ring.hasRoom = true) never := by
  refine Call.Ends.step (sink_eq p) ?_
  rw [hg.config_eq]
  refine waitThrough_rule
    (fun pauses q => ∃ popped, Going (Willing alive size batch o pauses) o pauses pushed popped q)
    (fun pauses q => ∃ popped, Going (Primed alive size batch o pauses) o pauses pushed popped q ∧
      q.sink.feed.ring.hasRoom = false)
    ?_ ?_ ?_ ⟨popped, hg.pauses_eq ▸ hg⟩
  · rintro pauses q ⟨popped, hq⟩
    refine .of_ok rfl ⟨fun hroom => ⟨pauses, popped, hq, hroom⟩, fun hroom => ?_⟩
    refine (hq.asked h).seq_never ?_
    rintro _ r ⟨rfl, hfeed, hr⟩
    exact ⟨popped, hr, hfeed ▸ hroom⟩
  · rintro q ⟨popped, hq, _⟩
    exact hq.pauses_ne_nil ho hpushed rfl
  · rintro next rest q ⟨popped, hq, hroom⟩
    have hfull := hq.served.sound.len_eq_of_full hroom
    have hbatch : batch ≤ q.sink.feed.ring.len := by
      rw [hfull, hq.served.capacity_eq]
      exact ho.batch_le
    refine (hq.pause h ho (.inr hbatch)).imp ?_ fun _ _ hn => hn
    rintro _ r (⟨popped, hr, _⟩ | ⟨hlt, _⟩)
    · exact ⟨popped, hr⟩
    · exact absurd hbatch (Nat.not_le_of_gt hlt)

/-- The flush queues six slots, and the engine goes on being given slots. -/
theorem Going.queueTail (h : Lively size closing ending alive told)
    (ho : Attended size batch closing o)
    (hg : Going (Willing alive size batch o pauses) o pauses [] popped p) :
    Ends Call.queueTail p
      (fun _ q => ∃ pauses pushed popped,
        Going (Willing alive size batch o pauses) o pauses pushed popped q ∧ pushed.length = 6)
      (fun halt _ => ∃ fault, halt = .fault fault) := by
  have hrule : Call.FlushRule
      (fun n q => ∃ pauses pushed popped,
        Going (Willing alive size batch o pauses) o pauses pushed popped q ∧ pushed.length + n = 6)
      (fun n q => ∃ pauses pushed popped,
        Going (Willing alive size batch o pauses) o pauses pushed popped q ∧
          pushed.length + n = 5 ∧ q.sink.feed.ring.hasRoom = true)
      (fun halt _ => ∃ fault, halt = .fault fault) := by
    refine ⟨?_, ?_, ?_, ?_, fun fault _ => ⟨fault, rfl⟩⟩
    · rintro n q ⟨pauses, pushed, popped, hq, hlen⟩
      refine (hq.awaitRoom h ho (by omega)).imp ?_ fun _ _ hn => hn.elim
      rintro _ r ⟨pauses, popped, hr, hroom⟩
      exact ⟨pauses, pushed, popped, hr, by omega, hroom⟩
    · rintro n q ⟨pauses, pushed, popped, hq, hlen, hroom⟩
      refine (Call.pushScratch_cases hq.served.sound hroom).imp ?_ fun _ _ hf => hf
      rintro _ _ ⟨_, hslot, rfl⟩
      refine ⟨pauses, pushed ++ [q.sink.scratch], popped,
        ⟨⟨hq.taken, hq.pauses_eq, hq.gaps_eq, hq.config_eq⟩, ?_, hq.engine⟩, ?_⟩
      · simpa using hq.served.trans (Feed.served_enqueue hq.served.sound hroom hslot)
      · simp only [List.length_append, List.length_singleton]
        omega
    · rintro n q scratch ⟨pauses, pushed, popped, hq, hrest⟩
      exact ⟨pauses, pushed, popped,
        ⟨⟨hq.taken, hq.pauses_eq, hq.gaps_eq, hq.config_eq⟩, hq.served, hq.engine⟩, hrest⟩
    · rintro n q scratch ⟨pauses, pushed, popped, hq, hrest⟩
      exact ⟨pauses, pushed, popped,
        ⟨⟨hq.taken, hq.pauses_eq, hq.gaps_eq, hq.config_eq⟩, hq.served, hq.engine⟩, hrest⟩
  exact (hrule.queueTail_ends ⟨pauses, [], popped, hg, rfl⟩).imp (fun _ _ hq => hq) fun _ _ hf => hf

/-- The last wait ends when the engine has come to rest. -/
theorem Going.awaitEnd (h : Lively size closing ending alive told)
    (ho : Attended size batch closing o)
    (hg : Going (Willing alive size batch o pauses) o pauses pushed popped p)
    (hpushed : pushed.length ≤ 6) (hstop : p.sink.feed.stopping = true) :
    Ends Call.awaitEnd p
      (fun _ q => ∃ pauses popped, Told size closing told o pauses pushed popped 0 q) never := by
  refine Call.Ends.step (sink_eq p) ?_
  rw [hg.config_eq]
  refine waitThrough_rule
    (fun pauses q =>
      (∃ popped, Going (Willing alive size batch o pauses) o pauses pushed popped q ∧
        q.sink.feed.stopping = true) ∨
      ∃ popped k, Told size closing told o pauses pushed popped k q)
    (fun pauses q =>
      (∃ popped, Going (Primed alive size batch o pauses) o pauses pushed popped q ∧
        q.sink.feed.stopping = true) ∨
      ∃ popped k, 0 < k ∧ Told size closing told o pauses pushed popped k q)
    ?_ ?_ ?_ (.inl ⟨popped, hg.pauses_eq ▸ hg, hstop⟩)
  · rintro pauses q (⟨popped, hq, hstop⟩ | ⟨popped, k, hq⟩)
    · refine (hq.asked h).seq_never ?_
      rintro _ r ⟨rfl, hfeed, hr⟩
      exact ⟨by rintro ⟨⟩, fun _ => .inl ⟨popped, hr, hfeed ▸ hstop⟩⟩
    · refine (hq.asked h).seq_never ?_
      rintro _ r ⟨rfl, hr⟩
      cases k with
      | zero => exact ⟨fun _ => ⟨pauses, popped, hr⟩, by rintro ⟨⟩⟩
      | succ k => exact ⟨by rintro ⟨⟩, fun _ => .inr ⟨popped, k + 1, Nat.succ_pos k, hr⟩⟩
  · rintro q (⟨popped, hq, _⟩ | ⟨popped, k, hk, hq⟩)
    · exact hq.pauses_ne_nil ho hpushed rfl
    · exact hq.pauses_ne_nil ho hpushed hk rfl
  · rintro next rest q (⟨popped, hq, hstop⟩ | ⟨popped, k, hk, hq⟩)
    · refine (hq.pause h ho (.inl hstop)).imp ?_ fun _ _ hn => hn
      rintro _ r (⟨popped, hr, hsame⟩ | ⟨_, hr⟩)
      · exact .inl ⟨popped, hr, hsame.trans hstop⟩
      · exact .inr hr
    · refine (hq.pause h ho hk).imp ?_ fun _ _ hn => hn
      rintro _ r ⟨k, hr⟩
      exact .inr ⟨popped, k, hr⟩

/-- An engine at rest does nothing in the gap before it is stopped. -/
theorem Told.gap (h : Lively size closing ending alive told)
    (ht : Told size closing told o pauses pushed popped 0 p)
    (hgaps : ∀ moves ∈ o.gaps, OnlyEngine moves) :
    ∃ after gaps, told 0 after ∧
      Call.gap p = .ok () { p with sink := { p.sink with engine := some after }, gaps } := by
  obtain ⟨engine, hengine, htold⟩ := ht.engine
  rw [← ht.gaps_eq] at hgaps
  simp only [Call.gap]
  cases hmoves : p.gaps with
  | nil => exact ⟨engine, p.gaps, htold, by rw [← hengine]⟩
  | cons moves rest =>
      rw [hmoves] at hgaps
      obtain ⟨after, hafter, hrun⟩ := h.moveAll_told (p := { p with gaps := rest })
        (hgaps moves List.mem_cons_self) hengine htold
      rw [Nat.zero_sub] at hafter
      exact ⟨after, rest, hafter, hrun⟩

/-- The end of a stop whose engine ends without a pull: an error of the flush comes first, and no
slot and no counter changes any more. -/
theorem stopEngine_of_finish {r : Progress E} {engine ended : E} (flushed : Except SinkError Unit)
    (hgap : Call.gap p = .ok () r) (hengine : r.sink.engine = some engine)
    (hstop : TransferEngine.stop engine = .finish ending ended) :
    ∃ q, Call.attempt (Call.stopEngine flushed) p =
        .ok (flushed >>= fun _ => stopResult ending) q ∧
      q.pauses = r.pauses ∧ q.sink.phase = .stopped ∧ q.sink.engine = some ended ∧
      q.sink.feed.ring = r.sink.feed.ring ∧ q.sink.feed.stats = r.sink.feed.stats ∧
      q.sink.feed.deliveries = r.sink.feed.deliveries := by
  have hact : Call.act TransferEngine.stop (.ok ()) r =
      .ok ending { r with sink := { r.sink with engine := some ended } } := by
    simp only [Call.act, hengine, hstop, Action.run]
  have hsilent := Feed.report_deliveries
  simp only [Call.attempt, Call.stopEngine]
  rw [bind_of_ok hgap, bind_of_ok hact]
  cases ending with
  | ok _ =>
      cases flushed with
      | ok _ => exact ⟨_, rfl, rfl, rfl, rfl, rfl, rfl, hsilent _ _⟩
      | error error => exact ⟨_, rfl, rfl, rfl, rfl, rfl, rfl, hsilent _ _⟩
  | error problem =>
      cases flushed with
      | ok _ => exact ⟨_, rfl, rfl, rfl, rfl, rfl, rfl, (hsilent _ _).trans (hsilent _ _)⟩
      | error error => exact ⟨_, rfl, rfl, rfl, rfl, rfl, rfl, (hsilent _ _).trans (hsilent _ _)⟩

theorem Told.stopEngine (h : Lively size closing ending alive told)
    (ht : Told size closing told o pauses pushed popped 0 p)
    (hgaps : ∀ moves ∈ o.gaps, OnlyEngine moves) :
    ∃ q, Call.attempt (Call.stopEngine (.ok ())) p = .ok (stopResult ending) q ∧
      q.pauses = p.pauses ∧ q.sink.phase = .stopped ∧ q.sink.feed.ring = p.sink.feed.ring ∧
      q.sink.feed.stats = p.sink.feed.stats ∧
      q.sink.feed.deliveries = p.sink.feed.deliveries := by
  obtain ⟨after, gaps, hafter, hgap⟩ := ht.gap h hgaps
  obtain ⟨ended, hstop⟩ := h.stop_told after hafter
  obtain ⟨q, hq, hpauses, hphase, _, hsame⟩ := stopEngine_of_finish (.ok ()) hgap rfl hstop
  exact ⟨q, hq, hpauses, hphase, hsame⟩

end Stop

namespace TransmitSink

variable [TransferEngine E] {sink : TransmitSink E} {batch closing : Nat}
variable {ending : Except String Unit} {alive : E → Prop} {told : Nat → E → Prop} {engine : E}
variable {now : Instant} {deadline : Option Instant} {pauses : List Pause} {gaps : List (List Move)}

open Call (attempt stopAt)

end TransmitSink

end IqTransmit
