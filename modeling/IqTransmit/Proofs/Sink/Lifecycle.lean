import IqTransmit.Engine.Steered
import IqTransmit.Proofs.Sink.Phases

/-!
The life of a sink. Between its calls it is idle, streaming or stopped, with an engine that fits as
long as it streams. Its stream is marked as stopping only once a stop has queued all of its last
slots, and until the next start; so no drain is told of the end of a session before these are
queued.
-/

namespace IqTransmit

variable {E : Type}

/-- Whether an entry is a drain that was told of the end. -/
def Event.isEnd : Event → Bool
  | silent _ .terminate _ => true
  | silent _ .proceed _ | reported _ | queued _ | sent .. => false

namespace Feed

variable {f g h : Feed} {allowed : Event → Prop} {last : List Slot}

/-! ### What is noted -/

/-- The entries that were noted since `f` are all `allowed`. -/
def Noting (allowed : Event → Prop) (f g : Feed) : Prop :=
  ∃ since, g.journal = since ++ f.journal ∧ ∀ event ∈ since, allowed event

theorem noting_of_eq (hjournal : g.journal = f.journal) : Noting allowed f g :=
  ⟨[], hjournal, fun _ hnil => absurd hnil List.not_mem_nil⟩

theorem noting_of_note (event : Event) (hevent : allowed event)
    (hjournal : g.journal = event :: f.journal) : Noting allowed f g := by
  refine ⟨[event], hjournal, ?_⟩
  intro other hother
  rwa [List.mem_singleton.mp hother]

theorem Noting.trans (hfg : Noting allowed f g) (hgh : Noting allowed g h) :
    Noting allowed f h := by
  obtain ⟨since, hsince, hallowed⟩ := hfg
  obtain ⟨later, hlater, hallowed'⟩ := hgh
  refine ⟨later ++ since, by rw [hlater, hsince, List.append_assoc], ?_⟩
  intro event hevent
  rcases List.mem_append.mp hevent with hmem | hmem
  · exact hallowed' event hmem
  · exact hallowed event hmem

theorem Noting.imp {allowed' : Event → Prop} (hn : Noting allowed f g)
    (h : ∀ event, allowed event → allowed' event) : Noting allowed' f g := by
  obtain ⟨since, hsince, hallowed⟩ := hn
  exact ⟨since, hsince, fun event hevent => h event (hallowed event hevent)⟩

/-- An entry that a drain notes: no slot is queued, and only a marked stream ends. -/
def FromDrain (stopping : Bool) (event : Event) : Prop :=
  event.queuedSlot? = none ∧ (stopping = false → event.isEnd = false)

theorem drain_notes (hf : f.ring.Sound) {drainer : Drainer} {dest : List Int8}
    {delivery : Delivery} (he : Feed.drain drainer dest f = .ok delivery g) :
    g.stopping = f.stopping ∧ Noting (FromDrain f.stopping) f g := by
  rcases drain_cases hf drainer dest with ⟨_, hd⟩ | ⟨_, hstop, hd⟩ | ⟨_, _, hd⟩
  · rw [he] at hd
    cases hd
    exact ⟨rfl, noting_of_note (.sent drainer _) ⟨rfl, fun _ => rfl⟩ rfl⟩
  · rw [he] at hd
    cases hd
    refine ⟨rfl, noting_of_note (.silent drainer .terminate _) ⟨rfl, fun hflows => ?_⟩ rfl⟩
    cases hstop.symm.trans hflows
  · rw [he] at hd
    cases hd
    refine ⟨rfl, (noting_of_note (g := f.underrun dest.length) (.reported _) ⟨rfl, fun _ => rfl⟩
      rfl).trans (noting_of_note (.silent drainer .proceed _) ⟨rfl, fun _ => rfl⟩ rfl)⟩

theorem Drained.notes (hd : Drained f g) (hf : f.ring.Sound) :
    Noting (fun event => event.queuedSlot? = none) f g := by
  induction hd with
  | refl => exact noting_of_eq rfl
  | drain hbefore he ih =>
      have hnotes := (drain_notes (hbefore.sound hf) he).2
      exact ih.trans (hnotes.imp fun _ hevent => hevent.1)
  | report notice _ ih => exact ih.trans (noting_of_note (.reported notice) rfl rfl)

theorem unqueued_eq_nil {events : List Event} (h : ∀ event ∈ events, event.queuedSlot? = none) :
    events.reverse.filterMap Event.queuedSlot? = [] :=
  List.filterMap_eq_nil_iff.mpr fun event hevent => h event (List.mem_reverse.mp hevent)

/-- Entries that queue nothing leave the slots queued. -/
theorem Noting.queuedSlots_eq (hn : Noting (fun event => event.queuedSlot? = none) f g) :
    g.queuedSlots = f.queuedSlots := by
  obtain ⟨since, hsince, hnone⟩ := hn
  simp only [queuedSlots, hsince, List.reverse_append, List.filterMap_append,
    unqueued_eq_nil hnone, List.append_nil]

/-! ### The end of a stream -/

/-- The stream goes on in `g`, and since `f` no drain was told of its end. -/
structure Quiet (f g : Feed) : Prop where
  flowing : g.stopping = false
  noting : Noting (fun event => event.isEnd = false) f g

theorem Quiet.refl (hflows : f.stopping = false) : Quiet f f := ⟨hflows, noting_of_eq rfl⟩

theorem Quiet.drain (hq : Quiet f g) (hg : g.ring.Sound) {drainer : Drainer} {dest : List Int8}
    {delivery : Delivery} (he : Feed.drain drainer dest g = .ok delivery h) : Quiet f h := by
  obtain ⟨hstop, hnotes⟩ := drain_notes hg he
  exact ⟨hstop.trans hq.flowing,
    hq.noting.trans (hnotes.imp fun _ hevent => hevent.2 hq.flowing)⟩

theorem Quiet.report (hq : Quiet f g) (notice : Notice) : Quiet f (g.report notice) :=
  ⟨hq.flowing, hq.noting.trans (noting_of_note (.reported notice) rfl rfl)⟩

theorem Quiet.enqueue (hq : Quiet f g) (slot : Slot) : Quiet f (g.enqueue slot) :=
  ⟨hq.flowing, hq.noting.trans (noting_of_note (.queued slot) rfl rfl)⟩

theorem Quiet.drained (hq : Quiet f g) (hg : g.ring.Sound) (hd : Drained g h) : Quiet f h := by
  induction hd with
  | refl => exact hq
  | drain hbefore he ih => exact ih.drain (hbefore.sound hg) he
  | report notice _ ih => exact ih.report notice

theorem Quiet.not_end (hq : Quiet f g) {newer older : List Event} {event : Event}
    (hjournal : g.journal = newer ++ event :: (older ++ f.journal)) : event.isEnd = false := by
  obtain ⟨since, hsince, hgoes⟩ := hq.noting
  rw [← List.cons_append, ← List.append_assoc] at hjournal
  apply hgoes
  rw [← List.append_cancel_right (hjournal.symm.trans hsince)]
  exact List.mem_append_right _ List.mem_cons_self

/-- A stop is under way that has come upon the feed `f`, and is to queue the slots `last`. The
stream goes on, or it went on until all of these were queued, and nothing is queued since. -/
inductive Closing (f : Feed) (last : List Slot) (g : Feed) : Prop where
  | quiet : Quiet f g → Closing f last g
  | closed {r : Feed} : Quiet f r → r.queuedSlots = f.queuedSlots ++ last →
      Noting (fun event => event.queuedSlot? = none) r g → Closing f last g

theorem Closing.drained (hc : Closing f last g) (hg : g.ring.Sound) (hd : Drained g h) :
    Closing f last h := by
  cases hc with
  | quiet hq => exact .quiet (hq.drained hg hd)
  | closed hq hqueued hnoting => exact .closed hq hqueued (hnoting.trans (hd.notes hg))

/-- The stream is marked only behind the last slots. -/
theorem Closing.queuedSlots_eq (hc : Closing f last g) (hstop : g.stopping = true) :
    g.queuedSlots = f.queuedSlots ++ last := by
  cases hc with
  | quiet hq => cases hstop.symm.trans hq.flowing
  | closed _ hqueued hnoting => exact hnoting.queuedSlots_eq.trans hqueued

/-- A drain is told of the end only behind the last slots. -/
theorem Closing.queued_before_end (hc : Closing f last g) {newer older : List Event} {event : Event}
    (hjournal : g.journal = newer ++ event :: (older ++ f.journal)) (hend : event.isEnd = true) :
    older.reverse.filterMap Event.queuedSlot? = last := by
  cases hc with
  | quiet hq => cases hend.symm.trans (hq.not_end hjournal)
  | @closed r hq hqueued hnoting =>
      obtain ⟨since, hsince, hgoes⟩ := hq.noting
      obtain ⟨later, hlater, hnone⟩ := hnoting
      rw [hsince, ← List.append_assoc] at hlater
      rw [← List.cons_append, ← List.append_assoc] at hjournal
      have hsplit : newer ++ event :: older = later ++ since :=
        List.append_cancel_right (hjournal.symm.trans hlater)
      have hnot : event ∉ since := by
        intro hold
        cases hend.symm.trans (hgoes event hold)
      -- the entry is one of those behind the last slots, so that these are all before it
      rcases List.append_eq_append_iff.mp hsplit with ⟨rest, hbehind, hcons⟩ | ⟨rest, _, hold⟩
      · rcases List.cons_eq_append_iff.mp hcons with ⟨_, hold⟩ | ⟨between, rfl, rfl⟩
        · exact absurd (hold ▸ List.mem_cons_self) hnot
        · have hempty : between.reverse.filterMap Event.queuedSlot? = [] := by
            apply unqueued_eq_nil
            intro other hother
            apply hnone
            rw [hbehind]
            exact List.mem_append_right _ (List.mem_cons_of_mem _ hother)
          simp only [queuedSlots, hsince, List.reverse_append, List.filterMap_append] at hqueued
          rw [List.reverse_append, List.filterMap_append, hempty, List.append_nil]
          exact List.append_cancel_left hqueued
      · exact absurd (hold ▸ List.mem_append_right _ List.mem_cons_self) hnot

end Feed

theorem steady_quiet (becomes : E → E → Prop) (f : Feed) :
    Steady becomes fun s => f.Quiet s.feed :=
  steady_of_feed (fun hq hf he => hq.drain hf he) (fun notice hq => hq.report notice)
    fun slot hq _ _ _ => hq.enqueue slot

theorem steady_noting (becomes : E → E → Prop) (f : Feed) :
    Steady becomes fun s => f.Noting (fun _ => True) s.feed :=
  steady_of_feed
    (fun hn hf he => hn.trans ((Feed.drain_notes hf he).2.imp fun _ _ => trivial))
    (fun notice hn => hn.trans (Feed.noting_of_note (.reported notice) trivial rfl))
    fun slot hn _ _ _ => hn.trans (Feed.noting_of_note (.queued slot) trivial rfl)

theorem TransmitSink.Invariant.phase_of_stopping {s : TransmitSink E} (h : s.Invariant)
    (hmarked : s.feed.stopping = true) : s.phase = .stopped := by
  by_contra hphase
  cases hmarked.symm.trans (h.flowing hphase)

variable [TransferEngine E]

namespace Call

variable {p : Progress E}

/-- A flush marks the stream, if at all, once the last slots are queued. -/
theorem flush_closing (now : Instant) (hs : p.sink.Sound)
    (hflows : p.sink.feed.stopping = false) :
    Preserves (Held fun t => p.sink.feed.Closing p.sink.lastSlots t.feed)
      (attempt (flushAndWait now)) p := by
  refine Ends.byDeadline (Ends.attempt_same
    (P := Held fun t => p.sink.feed.Closing p.sink.lastSlots t.feed) ?_)
    fun _ => ⟨hs.ring, .quiet (.refl hflows)⟩
  rw [flush_eq]
  apply ((queueTail_ends hs).and
    (queueTail_keeps changes_anyhow (steady_quiet _ p.sink.feed) hs (.refl hflows))).seq
  · rintro _ q ⟨hq, hquiet⟩
    obtain ⟨_, hflow⟩ := hq.flow
    have hmarked {r : Progress E}
        (hm : TransmitSink.Moved { q.sink with feed.stopping := true } r.sink) :
        r.sink.feed.ring.Sound ∧ p.sink.feed.Closing p.sink.lastSlots r.sink.feed :=
      ⟨hm.drained.sound hq.sound.ring,
        .closed hquiet hflow.queued_eq (hm.drained.notes hq.sound.ring)⟩
    refine Ends.step rfl ?_
    apply (awaitEnd_ends (p := { q with sink := { q.sink with feed.stopping := true } })
      hq.sound.ring).imp
    · exact fun _ _ hm => hmarked hm
    · exact fun _ _ hm => hmarked hm.1
  · rintro _ q ⟨⟨⟨_, haccount, _⟩, _⟩, hquiet⟩
    exact ⟨haccount.sound.ring, .quiet hquiet⟩

/-- So does a stop of a sink that streams. -/
theorem stop_closing (now : Instant) (hs : p.sink.Invariant)
    (hphase : p.sink.phase = .streaming) :
    Preserves (fun t => p.sink.feed.Closing p.sink.lastSlots t.feed) (stopAt now) p := by
  have hflows : p.sink.feed.stopping = false := by
    apply hs.flowing
    rw [hphase]
    decide
  have hflush := flush_closing (p := { p with sink := { p.sink with phase := .stopping } }) now
    (hs.toSound.withPhase .stopping) hflows
  have hrun : stopAt now p = _ := stop_of_streaming hphase (hs.bound_of_streaming hphase)
  simp only [Preserves, Ends, hrun]
  apply hflush.seq
  · rintro flushed q ⟨hring, hclosing⟩
    apply (stopEngine_ends flushed hring).imp
    · exact fun _ _ hm => hclosing.drained hring hm.1.drained
    · exact fun _ _ hm => hclosing.drained hring hm.1.drained
  · exact fun _ _ hq => hq.2

end Call

namespace SinkStep

variable {step : SinkStep E} {past : List (SinkStep E)}

theorem closing_of_stopsStream (hs : step.before.Invariant) (hstop : step.StopsStream) :
    step.before.feed.Closing step.before.lastSlots step.after.feed := by
  obtain ⟨hphase, pauses, gaps, now, he⟩ := hstop
  simp only [after, he]
  exact Operation.ofCall_keeps
    (P := fun t => step.before.feed.Closing step.before.lastSlots t.feed)
    (Call.Ends.attempt_same
      (P := fun t => step.before.feed.Closing step.before.lastSlots t.feed)
      (Call.stop_closing (p := ⟨step.before, pauses, gaps⟩) now hs hphase))

/-- Of a stream that goes on no drain is told the end, unless the sink is stopped meanwhile. -/
theorem quiet (hs : step.before.Sound) (hflows : step.before.feed.stopping = false)
    (hstop : ¬ step.StopsStream) : step.before.feed.Quiet step.after.feed := by
  apply step.keeps_feed (steady_quiet _ step.before.feed) hs (.refl hflows)
  · exact fun _ => ⟨rfl, Feed.noting_of_eq rfl⟩
  · exact fun he => absurd he hstop

/-- No entry of the journal is taken back. -/
theorem journal_suffix (hs : step.before.Sound) :
    step.before.feed.journal <:+ step.after.feed.journal := by
  have hnoting : step.before.feed.Noting (fun _ => True) step.after.feed := by
    apply step.keeps_feed (steady_noting _ step.before.feed) hs (Feed.noting_of_eq rfl)
    · exact fun _ => Feed.noting_of_eq rfl
    · exact fun _ _ hn => hn
  obtain ⟨since, hsince, _⟩ := hnoting
  exact ⟨since, hsince.symm⟩

end SinkStep

/-! ### Engines whose transfers keep their size -/

/-- An engine that has come of another of the same transfer size. -/
def SameSize (e after : E) : Prop :=
  TransferEngine.transferSize after = TransferEngine.transferSize e

/-- Engines that have transfers of one size for as long as they live. -/
structure FixedSize (E : Type) [TransferEngine E] : Prop extends Changes (SameSize (E := E)) where
  start : ∀ e : E, SameSize e (TransferEngine.start e).2

theorem Steered.fixedSize : FixedSize Steered where
  poll e := by
    simp only [SameSize, TransferEngine.poll, Steered.poll]
    repeat' split
    all_goals rfl
  advance e after h := by
    simp only [TransferEngine.advance, Steered.advance] at h
    split at h
    · cases h with
      | pull pulled h =>
          cases pulled with
          | delivered delivery =>
              cases h
              simp only [SameSize, TransferEngine.transferSize, Steered.receive]
              split <;> rfl
          | crashed =>
              cases h
              rfl
    · cases h
      rfl
  stop e after h := by
    cases h
    simp only [SameSize, TransferEngine.transferSize, Steered.stop]
    split <;> rfl
  start e := by
    simp only [SameSize, TransferEngine.start, Steered.start]
    split <;> rfl

/-- The engine of a sink, if there is one, has transfers of the slot size. -/
def TransmitSink.Fits (s : TransmitSink E) : Prop :=
  ∀ engine, s.engine = some engine → TransferEngine.transferSize engine = s.config.slotSize

theorem steady_fits : Steady SameSize (TransmitSink.Fits (E := E)) where
  drain hp _ _ := hp
  report _ hp := hp
  enqueue hp _ _ _ := hp
  engine hp hengine hsame := by
    rintro _ ⟨rfl⟩
    exact hsame.trans (hp _ hengine)
  scratch _ _ hp := hp
  converter _ hp := hp

namespace SinkStep

variable {step : SinkStep E} {past : List (SinkStep E)}

/-- An engine that streams goes on to fit, and one that begins to stream was found to fit. -/
theorem fits (hfixed : FixedSize E) (hs : step.before.Invariant)
    (hwithin : step.operation.Within SameSize)
    (hbefore : step.before.phase = .streaming → step.before.Fits)
    (hreturns : step.reply.returns = true) (hphase : step.after.phase = .streaming) :
    step.after.Fits := by
  by_cases hstop : step.StopsStream
  · cases hphase.symm.trans (phase_of_stopsStream hs hstop hreturns)
  · by_cases hstart : step.operation = .start
    · have hends := step.before.start_ends
      rw [after_of_start hstart] at hphase ⊢
      generalize step.before.start.2 = t at hends hphase ⊢
      cases hends with
      | refused _ => exact hbefore hphase
      | already hstreams => exact hbefore hstreams
      | rejected hnot _ _ _ => exact absurd hphase hnot
      | @begun engine after _ _ hsize haccepted =>
          rintro _ ⟨rfl⟩
          have hsame := hfixed.start engine
          rw [haccepted] at hsame
          exact hsame.trans hsize
    · have hstreams := (phase_eq hs.toSound hstart hstop).symm.trans hphase
      apply step.operation.perform_keeps hfixed.toChanges steady_fits hs.toSound
        (hbefore hstreams) hwithin
      · intro engine _
        rcases step.before.bind_cases engine with he | ⟨hnot, _⟩
        · rw [he]
          exact hbefore hstreams
        · exact absurd hstreams hnot
      · exact fun he => absurd he hstart
      · exact fun pauses gaps now he hphase => absurd ⟨hphase, pauses, gaps, now, he⟩ hstop

/-! ### The last stop -/

/-- The last of the steps that has stopped a sink that streamed has queued all of the last slots: the
pending bytes padded with silence, and five slots of silence. The sink is stopped since. -/
def Complete (past : List (SinkStep E)) : Prop :=
  ∃ (earlier later : List (SinkStep E)) (stop : SinkStep E), past = earlier ++ stop :: later ∧
    stop.StopsStream ∧
    stop.after.feed.queuedSlots = stop.before.feed.queuedSlots ++ stop.before.lastSlots ∧
    ∀ step ∈ later, step.before.phase = .stopped

theorem Complete.snoc (h : Complete past) (hphase : step.before.phase = .stopped) :
    Complete (past ++ [step]) := by
  obtain ⟨earlier, later, stop, rfl, hstop, hqueued, hlater⟩ := h
  refine ⟨earlier, later ++ [step], stop, by simp, hstop, hqueued, ?_⟩
  intro other hother
  rcases List.mem_append.mp hother with hmem | hmem
  · exact hlater other hmem
  · rwa [List.mem_singleton.mp hmem]

/-- The stream is marked only by a stop that has queued its last slots. -/
theorem complete (hs : step.before.Invariant)
    (hpast : step.before.feed.stopping = true → Complete past)
    (hmarked : step.after.feed.stopping = true) : Complete (past ++ [step]) := by
  by_cases hstop : step.StopsStream
  · have hqueued := (closing_of_stopsStream hs hstop).queuedSlots_eq hmarked
    exact ⟨past, [], step, rfl, hstop, hqueued, fun _ hnil => absurd hnil List.not_mem_nil⟩
  · cases hbefore : step.before.feed.stopping with
    | true => exact (hpast hbefore).snoc (hs.phase_of_stopping hbefore)
    | false => cases hmarked.symm.trans (quiet hs.toSound hbefore hstop).flowing

/-- A drain is told of the end after the last slots of the stop during which it comes, or once such
a stop is complete. -/
theorem complete_before_end (hs : step.before.Invariant)
    (hpast : step.before.feed.stopping = true → Complete past) {newer older : List Event}
    {event : Event} (hend : event.isEnd = true)
    (hjournal : step.after.feed.journal =
      newer ++ event :: (older ++ step.before.feed.journal)) :
    (step.StopsStream ∧ older.reverse.filterMap Event.queuedSlot? = step.before.lastSlots) ∨
      (step.before.phase = .stopped ∧ Complete past) := by
  by_cases hstop : step.StopsStream
  · exact .inl ⟨hstop, (closing_of_stopsStream hs hstop).queued_before_end hjournal hend⟩
  · cases hbefore : step.before.feed.stopping with
    | true => exact .inr ⟨hs.phase_of_stopping hbefore, hpast hbefore⟩
    | false => cases hend.symm.trans ((quiet hs.toSound hbefore hstop).not_end hjournal)

/-- What holds after a step that returns, of a sink with this configuration. -/
structure Settled (config : SinkConfig) (step : SinkStep E) : Prop where
  scratch_length : step.after.scratch.length = config.slotSize
  fillOffset_even : 2 ∣ step.after.fillOffset
  fillOffset_lt : step.after.fillOffset < config.slotSize
  queued_le : step.after.queued ≤ config.bufferCount
  transition : Transition step.operation step.before.phase step.after.phase
  settled : step.after.phase ≠ .stopping
  bound : step.after.phase ≠ .idle → step.after.engine.isSome = true
  fits : step.after.phase = .streaming → ∃ engine, step.after.engine = some engine ∧
    TransferEngine.transferSize engine = config.slotSize
  stopped : step.after.feed.stopping = true → step.after.phase = .stopped

theorem settled_of_fits {config : SinkConfig} (hs : step.before.Invariant)
    (ht : step.after.Invariant) (hreturns : step.reply.returns = true)
    (hconfig : step.after.config = config)
    (hfits : step.after.phase = .streaming → step.after.Fits) : step.Settled config := by
  subst hconfig
  refine ⟨ht.scratch_length.trans ht.slotSize_eq, ht.fillOffset_even, ?_, ?_,
    step.transition hs hreturns, ht.settled, ht.bound, ?_, ht.phase_of_stopping⟩
  · exact ht.fillOffset_lt.trans_eq ht.slotSize_eq
  · exact ht.ring.len_le.trans_eq ht.capacity_eq
  · intro hphase
    obtain ⟨engine, he⟩ := Option.isSome_iff_exists.mp (ht.bound_of_streaming hphase)
    exact ⟨engine, he, hfits hphase engine he⟩

/-- What is known before a step of a sink with this configuration. -/
structure Ready (config : SinkConfig) (past : List (SinkStep E)) (s : TransmitSink E) : Prop where
  reachable : s.Reachable
  config_eq : s.config = config
  fits : s.phase = .streaming → s.Fits
  complete : s.feed.stopping = true → Complete past

theorem Ready.next {config : SinkConfig} (hfixed : FixedSize E)
    (h : Ready config past step.before) (hwithin : step.operation.Within SameSize)
    (hreturns : step.reply.returns = true) : Ready config (past ++ [step]) step.after := by
  have hs := h.reachable.invariant
  exact ⟨Operation.perform_reachable h.reachable step.operation hreturns,
    (step.config_eq hs.toSound).trans h.config_eq, step.fits hfixed hs hwithin h.fits hreturns,
    step.complete hs h.complete⟩

end SinkStep

namespace Operation

variable {s : TransmitSink E}

/-- In every run of a new sink, with engines whose transfers keep their size, each step that returns
leaves a sink that is settled. The stream is marked as stopping only while it is stopped and if the
last stop of a sink that streamed has queued its six slots, and during a stop no sooner. A drain
during a step that is told of the end comes after the last of these pushes. -/
theorem lifecycle_invariant (hfixed : FixedSize E) {config : SinkConfig} {engine : Option E}
    (hmake : TransmitSink.make config engine = .ok s) {operations : List (Operation E)}
    (hwithin : ∀ operation ∈ operations, operation.Within SameSize)
    {earlier later : List (SinkStep E)} {step : SinkStep E}
    (hsplit : steps s operations = earlier ++ step :: later) :
    (step.reply.returns = true → step.Settled config) ∧
      (step.after.feed.stopping = true → SinkStep.Complete (earlier ++ [step])) ∧
      step.before.feed.journal <:+ step.after.feed.journal ∧
      ∀ newer older drainer size,
        step.after.feed.journal =
          newer ++ .silent drainer .terminate size :: (older ++ step.before.feed.journal) →
        (step.StopsStream ∧ older.reverse.filterMap Event.queuedSlot? = step.before.lastSlots) ∨
          (step.before.phase = .stopped ∧ SinkStep.Complete earlier) := by
  have hnew := TransmitSink.invariant_make hmake
  have hidle := TransmitSink.phase_of_make hmake
  have hmem : step ∈ steps s operations := by
    rw [hsplit]
    exact List.mem_append_right _ List.mem_cons_self
  have hready : SinkStep.Ready config ([] ++ earlier) step.before := by
    refine holds_before_step hsplit [] ⟨.make hmake, TransmitSink.config_of_make hmake, ?_, ?_⟩ ?_
    · exact fun hphase => absurd (hidle.symm.trans hphase) nofun
    · intro hmarked
      cases hmarked.symm.trans (hnew.flowing (by rw [hidle]; decide))
    · intro past step hmem hready hreturns
      exact hready.next hfixed (hwithin _ (operation_mem_of_mem_steps hmem)) hreturns
  have hs := hready.reachable.invariant
  refine ⟨fun hreturns => ?_, step.complete hs hready.complete,
    step.journal_suffix hs.toSound, fun newer older drainer size hjournal =>
      step.complete_before_end hs hready.complete rfl hjournal⟩
  have hnext := hready.next hfixed (hwithin _ (operation_mem_of_mem_steps hmem)) hreturns
  exact step.settled_of_fits hs hnext.reachable.invariant hreturns hnext.config_eq hnext.fits

/-- A stop to which the engine keeps up. -/
def promptStop : Operation Steered := .stop (List.replicate 8 { moves := [.engine] }) []

theorem lifecycle_invariant_of_prompt_stop :
    ∃ (s : TransmitSink Steered) (stop : SinkStep Steered),
      TransmitSink.make { bufferCount := 2, slotSize := 4 }
          (some { transferSize := 4, batch := 1 }) = .ok s ∧
        steps s [.start, promptStop] = [⟨s, .start⟩, stop] ∧
        stop.Settled { bufferCount := 2, slotSize := 4 } ∧
        SinkStep.Complete [⟨s, .start⟩, stop] := by
  obtain ⟨s, hmake, hreturns, hmarked⟩ : ∃ s : TransmitSink Steered,
      TransmitSink.make { bufferCount := 2, slotSize := 4 }
          (some { transferSize := 4, batch := 1 }) = .ok s ∧
        (⟨s.start.2, promptStop⟩ : SinkStep Steered).reply.returns = true ∧
        (⟨s.start.2, promptStop⟩ : SinkStep Steered).after.feed.stopping = true :=
    ⟨_, rfl, by decide +kernel, by decide +kernel⟩
  have hsteps : steps s [.start, promptStop] = [⟨s, .start⟩] ++ [⟨s.start.2, promptStop⟩] := by
    rw [steps_of_returns rfl, steps_singleton]
    rfl
  have hwithin : ∀ operation ∈ [.start, promptStop], operation.Within SameSize := by
    simp [promptStop, Within]
  obtain ⟨hsettled, hcomplete, _⟩ :=
    lifecycle_invariant Steered.fixedSize hmake hwithin hsteps
  exact ⟨s, _, hmake, hsteps, hsettled hreturns, hcomplete hmarked⟩

end Operation

end IqTransmit
