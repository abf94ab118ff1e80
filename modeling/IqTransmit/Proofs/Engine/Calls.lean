import IqTransmit.Proofs.Engine.File
import IqTransmit.Proofs.Sink.Flush
import IqTransmit.Proofs.Sink.Room

/-!
Calls of a sink that only its file engine drains. The engine stays attached to the feed, whatever it
does meanwhile. If it moves in every pause then it needs at most four of them to make room, so that
a call returns if it is given enough pauses; and it gives up only if the engine has failed, or if a
pause comes after the limit of a stop.
-/

namespace IqTransmit

/-- The setting of a call: the output of the engine before its start, configuration and phase of the
sink, the pauses, and whether these are fair to the engine. -/
structure Setting where
  origin : Output
  config : SinkConfig
  phase : Phase
  pauses : List Pause
  fair : Prop

/-- Only the engine moves during the pauses, and if they are fair it does so in each. -/
structure Setting.Lawful (c : Setting) : Prop where
  only : ∀ pause ∈ c.pauses, OnlyEngine pause.moves
  moves : c.fair → ∀ pause ∈ c.pauses, pause.moves ≠ []

/-- A call is at `p`, with the engine attached and, if the pauses are fair, `need` of them left. -/
structure Tended (c : Setting) (stopping : Bool) (need : Nat) (p : Progress FileEngine) : Prop where
  sound : p.sink.feed.ring.Sound
  engine : ∃ e, p.sink.engine = some e ∧ e.Attached c.origin p.sink.feed
  stopping_eq : p.sink.feed.stopping = stopping
  capacity_eq : p.sink.feed.ring.capacity = c.config.bufferCount
  config_eq : p.sink.config = c.config
  phase_eq : p.sink.phase = c.phase
  pauses : p.pauses ⊆ c.pauses
  gaps : ∀ moves ∈ p.gaps, OnlyEngine moves
  enough : c.fair → need ≤ p.pauses.length

/-- The engine has failed, and the ring is full. -/
structure Broken (origin : Output) (s : TransmitSink FileEngine) : Prop where
  full : s.feed.ring.hasRoom = false
  failed : ∃ e problem, s.engine = some e ∧ e.streaming = false ∧
    e.worker = some (.ended (.failed problem)) ∧ FileEngine.Lost origin e.output

namespace FileEngine

open Call (Ends)

variable {c : Setting} {stopping : Bool} {need : Nat} {p q : Progress FileEngine} {e : FileEngine}

/-! ## Moves -/

/-- Moves of the engine keep it attached, and leave less work if there are any. -/
theorem Attached.moveAll {origin : Output} {moves : List Move} (hmoves : OnlyEngine moves)
    (he : p.sink.engine = some e) (h : e.Attached origin p.sink.feed)
    (hp : p.sink.feed.ring.Sound) :
    ∃ e' feed, Call.moveAll moves p =
        .ok () { p with sink := { p.sink with engine := some e', feed } } ∧
      e'.Attached origin feed ∧ p.sink.feed.Drained feed ∧
      (p.sink.feed.stopping = true ∨
          0 < p.sink.feed.ring.len ∧ feed.ring.len = p.sink.feed.ring.len →
        e'.work feed + min moves.length (min 1 e.rank) ≤ e.work p.sink.feed) := by
  induction moves generalizing p e with
  | nil =>
      refine ⟨e, p.sink.feed, by rw [← he]; rfl, h, .refl, fun _ => ?_⟩
      simp
  | cons m rest ih =>
      obtain ⟨next, g, hrun, hnext, hdrained, hless⟩ := h.advance hp
      obtain ⟨hm, hothers⟩ := onlyEngine_cons.mp hmoves
      have hmove : Call.move m p =
          .ok () { p with sink := { p.sink with engine := some next, feed := g } } := by
        subst hm
        simp only [Call.move, Call.act, he, TransferEngine.advance, hrun]
      obtain ⟨e', feed, hrest, hattached, hafter, hwork⟩ :=
        ih (p := { p with sink := { p.sink with engine := some next, feed := g } })
          hothers rfl hnext (hdrained.sound hp)
      replace hafter : g.Drained feed := hafter
      replace hwork : g.stopping = true ∨ 0 < g.ring.len ∧ feed.ring.len = g.ring.len →
        e'.work feed + min rest.length (min 1 next.rank) ≤ next.work g := hwork
      obtain ⟨_, hflow, hsame⟩ := hdrained.flow hp
      obtain ⟨_, hflow', _⟩ := hafter.flow (hdrained.sound hp)
      have hlen := hflow.length_eq_add
      have hlen' := hflow'.length_eq_add
      simp only [List.length_nil] at hlen hlen'
      refine ⟨e', feed, ?_, hattached, hdrained.trans hafter, fun hcond => ?_⟩
      · rw [Call.moveAll, hmove]
        exact hrest
      · have hfirst := hless (hcond.imp id fun hc => ⟨hc.1, by omega⟩)
        have hlast := hwork (hcond.imp (hsame.trans ·) fun hc => ⟨by omega, by omega⟩)
        simp only [List.length_cons]
        omega

end FileEngine

namespace Tended

open Call (Ends never sink_eq waitThrough_rule)

variable {c : Setting} {stopping : Bool} {need : Nat} {p q : Progress FileEngine} {e : FileEngine}
variable {feed : Feed} {limit : Option Duration}

/-! ## Steps that keep a call tended -/

/-- The engine has moved. -/
theorem drained (h : Tended c stopping need p) (he : e.Attached c.origin feed)
    (hdrained : p.sink.feed.Drained feed) :
    Tended c stopping need { p with sink := { p.sink with engine := some e, feed } } := by
  obtain ⟨_, hflow, hsame⟩ := hdrained.flow h.sound
  exact ⟨hflow.sound, ⟨e, rfl, he⟩, hsame.trans h.stopping_eq,
    hflow.capacity_eq.trans h.capacity_eq, h.config_eq, h.phase_eq, h.pauses, h.gaps, h.enough⟩

/-- The scratch slot is another. -/
theorem refilled (h : Tended c stopping need p) (scratch : Slot) (fillOffset : Nat) :
    Tended c stopping need { p with sink := { p.sink with scratch, fillOffset } } :=
  ⟨h.sound, h.engine, h.stopping_eq, h.capacity_eq, h.config_eq, h.phase_eq, h.pauses, h.gaps,
    h.enough⟩

/-- Fewer pauses are needed. -/
theorem weaken {less : Nat} (h : Tended c stopping need p) (hle : less ≤ need) :
    Tended c stopping less p :=
  ⟨h.sound, h.engine, h.stopping_eq, h.capacity_eq, h.config_eq, h.phase_eq, h.pauses, h.gaps,
    fun hfair => Nat.le_trans hle (h.enough hfair)⟩

/-- A pause is taken, and none counted on. -/
theorem taken {next : Pause} {rest : List Pause} (h : Tended c stopping need p)
    (hpauses : p.pauses = next :: rest) : Tended c stopping 0 { p with pauses := rest } :=
  ⟨h.sound, h.engine, h.stopping_eq, h.capacity_eq, h.config_eq, h.phase_eq,
    fun _ hmem => h.pauses (hpauses ▸ List.mem_cons_of_mem _ hmem), h.gaps, fun _ => Nat.zero_le _⟩

/-- The scratch slot was pushed. -/
theorem pushed (h : Tended c false need p) (hroom : p.sink.feed.ring.hasRoom = true) :
    Tended c false need
      { p with sink := { p.sink with feed := p.sink.feed.enqueue p.sink.scratch } } := by
  obtain ⟨e, he, hattached⟩ := h.engine
  exact ⟨h.sound.enqueue hroom, ⟨e, he, hattached.enqueue h.stopping_eq _⟩, h.stopping_eq,
    h.capacity_eq, h.config_eq, h.phase_eq, h.pauses, h.gaps, h.enough⟩

theorem moveAll {moves : List Move} (h : Tended c stopping need p) (hmoves : OnlyEngine moves) :
    Ends (Call.moveAll moves) p (fun _ q => Tended c stopping need q) never := by
  obtain ⟨e, he, hattached⟩ := h.engine
  obtain ⟨e', feed, hrun, hattached', hdrained, _⟩ := hattached.moveAll hmoves he h.sound
  exact .of_ok hrun (h.drained hattached' hdrained)

theorem gap (h : Tended c stopping need p) :
    Ends Call.gap p (fun _ q => Tended c stopping need q) never := by
  simp only [Ends, Call.gap]
  cases hgaps : p.gaps with
  | nil => exact h
  | cons moves rest =>
      have hall := h.gaps
      rw [hgaps] at hall
      have hrest : Tended c stopping need { p with gaps := rest } :=
        ⟨h.sound, h.engine, h.stopping_eq, h.capacity_eq, h.config_eq, h.phase_eq, h.pauses,
          fun moves hmem => hall moves (List.mem_cons_of_mem _ hmem), h.enough⟩
      exact hrest.moveAll (hall moves List.mem_cons_self)

/-! ## Waits for room -/

/-- Why a wait ends without room: its pauses were used up, the engine has failed at a full ring, or
a pause came after the limit. -/
def GaveUp (c : Setting) (limit : Option Duration) (halt : Halt) (q : Progress FileEngine) : Prop :=
  (halt = .waiting ∧ ¬ c.fair) ∨ (halt = .failed .engineStopped ∧ Broken c.origin q.sink) ∨
    ∃ time, limit = some time ∧ halt = .failed (.stopTimeout time) ∧
      ∃ pause ∈ c.pauses, ¬ pause.InTime limit

/-- A look at the engine that gives up if it streams no more. -/
def Looks (c : Setting) (look : Call FileEngine Unit) : Prop :=
  ∀ q e, q.sink.engine = some e → q.sink.phase = c.phase →
    Ends look q (fun _ r => r = q ∧ e.streaming = true)
      (fun halt r => halt = .failed .engineStopped ∧ e.streaming = false ∧
        r.sink.engine = some e ∧ r.sink.feed.ring = q.sink.feed.ring)

/-- A wait for room takes four pauses at most if the engine moves in each of them. -/
theorem awaitRoom {look : Call FileEngine Unit} (hc : c.Lawful) (hlook : Looks c look)
    (h : Tended c false (need + 4) p) :
    Ends (Call.waitUntil Call.hasRoom look limit) p
      (fun _ q => Tended c false need q ∧ q.sink.feed.ring.hasRoom = true)
      (GaveUp c limit) := by
  refine waitThrough_rule
    (fun pauses q => q.pauses = pauses ∧ Tended c false 0 q ∧
      ∃ e, q.sink.engine = some e ∧ e.Attached c.origin q.sink.feed ∧
        (c.fair → need ≤ pauses.length ∧
          (q.sink.feed.ring.hasRoom = false → need + e.rank ≤ pauses.length)))
    (fun pauses q => q.pauses = pauses ∧ Tended c false 0 q ∧ q.sink.feed.ring.hasRoom = false ∧
      ∃ e, q.sink.engine = some e ∧ e.Attached c.origin q.sink.feed ∧ 0 < e.rank ∧
        (c.fair → need + e.rank ≤ pauses.length))
    ?_ ?_ ?_ ?_
  · rintro pauses q ⟨rfl, hq, e, he, hattached, hneed⟩
    refine .of_ok rfl ⟨fun hroom => ⟨?_, hroom⟩, fun hroom => ?_⟩
    · exact ⟨hq.sound, hq.engine, hq.stopping_eq, hq.capacity_eq, hq.config_eq, hq.phase_eq,
        hq.pauses, hq.gaps, fun hfair => (hneed hfair).1⟩
    · refine (hlook q e he hq.phase_eq).imp ?_ ?_
      · rintro _ _ ⟨rfl, hstreams⟩
        exact ⟨rfl, hq, hroom, e, he, hattached, hattached.streaming_iff.mp hstreams,
          fun hfair => (hneed hfair).2 hroom⟩
      · rintro _ r ⟨rfl, hgone, hr, hring⟩
        refine .inr (.inl ⟨rfl, hring ▸ hroom, ?_⟩)
        rcases hattached.ended hgone with ⟨_, hended, _⟩ | ⟨problem, hworker, hlost⟩
        · exact absurd (hq.stopping_eq.symm.trans hended.stopping) nofun
        · exact ⟨e, problem, hr, hgone, hworker, hlost⟩
  · rintro q ⟨_, _, _, e, _, _, hpos, hneed⟩
    refine .inl ⟨rfl, fun hfair => ?_⟩
    have hle := hneed hfair
    rw [List.length_nil] at hle
    omega
  · rintro next rest q ⟨hpauses, hq, hroom, e, he, hattached, hpos, hneed⟩
    have hmem : next ∈ c.pauses := hq.pauses (hpauses ▸ List.mem_cons_self)
    by_cases htime : next.InTime limit
    · obtain ⟨e', feed, hrun, hattached', hdrained, hwork⟩ :=
        hattached.moveAll (p := { q with pauses := rest }) (hc.only next hmem) he hq.sound
      have hrest := (hq.taken hpauses).drained hattached' hdrained
      refine .of_ok ((Call.takePause_of_inTime htime rest q).trans hrun)
        ⟨rfl, hrest, e', rfl, hattached', fun hfair => ?_⟩
      have hle := hneed hfair
      rw [List.length_cons] at hle
      refine ⟨by omega, fun hfull => ?_⟩
      -- the ring is as full as before, so that the worker has come nearer to its next pull
      have hlen := hq.sound.len_eq_of_full hroom
      have hlen' := hrest.sound.len_eq_of_full hfull
      have hcapacity := hq.sound.capacity_pos
      have hsame := hrest.capacity_eq.trans hq.capacity_eq.symm
      have hmoves := List.length_pos_iff.mpr (hc.moves hfair next hmem)
      simp only at hlen' hsame
      have hless := hwork (.inr ⟨by simp only; omega, by simp only; omega⟩)
      simp only [FileEngine.work] at hless
      omega
    · obtain ⟨time, r, hlimit, hrun⟩ := Call.takePause_of_late htime rest q
      exact .of_error hrun (.inr (.inr ⟨time, hlimit, rfl, next, hmem, htime⟩))
  · obtain ⟨e, he, hattached⟩ := h.engine
    refine ⟨rfl, h.weaken (Nat.zero_le _), e, he, hattached, fun hfair => ?_⟩
    have hle := h.enough hfair
    have hrank := hattached.rank_le
    exact ⟨by omega, fun _ => by omega⟩

/-! ## Looks -/

theorem askEngine_eq (he : p.sink.engine = some e) : Call.askEngine p = .ok e.streaming p := by
  simp only [Call.askEngine, he, TransferEngine.poll]
  rw [← he]

theorem looksToStop : Looks c (do unless ← Call.askEngine do Call.fail .engineStopped) := by
  intro q e he _
  refine Ends.step (askEngine_eq he) ?_
  cases hstreams : e.streaming with
  | true => exact ⟨rfl, rfl⟩
  | false => exact ⟨rfl, rfl, he, rfl⟩

theorem looksToWork (hphase : c.phase = .streaming) : Looks c Call.lookToWork := by
  intro q e he hq
  refine Ends.step (sink_eq q) ?_
  rw [if_pos (hq.trans hphase)]
  refine Ends.step (askEngine_eq he) ?_
  cases hstreams : e.streaming with
  | true => exact ⟨rfl, rfl⟩
  | false => exact ⟨rfl, rfl, he, rfl⟩

/-! ## Filling -/

/-- A push at a ring with room keeps a call tended; anything else is a fault. -/
theorem demandPush (h : Tended c false need p) :
    Ends Call.demandPush p (fun pushed q => pushed = true ∧ Tended c false need q)
      (fun halt _ => ∃ fault, halt = .fault fault) := by
  cases hroom : p.sink.feed.ring.hasRoom with
  | true =>
      simp only [Ends, Call.demandPush_of_room hroom]
      refine (Call.pushScratch_cases h.sound hroom).imp ?_ fun _ _ hf => hf
      rintro _ q ⟨hpushed, _, rfl⟩
      exact ⟨hpushed, h.pushed hroom⟩
  | false =>
      have hasks : (Call.hasRoom : Call FileEngine Bool) p = .ok false p := by
        rw [Call.hasRoom, hroom]
      exact Ends.step hasks ⟨_, rfl⟩

/-- A call of `work` waits once for room at most. -/
theorem workWith (hc : c.Lawful) (hphase : c.phase = .streaming)
    (h : Tended c false (need + 4) p) (input : List Sample) :
    Ends (Call.workWith Call.demandPush input) p (fun _ q => Tended c false need q)
      (fun halt q => (∃ fault, halt = .fault fault) ∨ GaveUp c none halt q) := by
  refine h.gap.seq_never fun _ q hq => ?_
  refine (hq.awaitRoom hc (looksToWork hphase)).seq ?_ fun _ _ hgave => .inr hgave
  rintro _ r ⟨hr, _⟩
  refine Ends.step (sink_eq r) ?_
  refine (Call.checked_ends _ r).seq ?_ fun _ _ hf => .inl hf
  rintro free r rfl
  refine (Call.checked_ends _ r).seq ?_ fun _ _ hf => .inl hf
  rintro batch r rfl
  refine (Call.convertBatch_ends batch r).seq ?_ fun _ _ hf => .inl hf
  rintro _ _ ⟨scratch, fillOffset, rfl⟩
  have ht := hr.refilled scratch fillOffset
  split
  · refine ht.gap.seq_never fun _ t ht => ?_
    refine ht.demandPush.seq ?_ fun _ _ hf => .inl hf
    rintro _ u ⟨rfl, hu⟩
    exact Ends.step rfl (hu.refilled _ 0)
  · exact ht

theorem work (hc : c.Lawful) (hphase : c.phase = .streaming) (hp : p.sink.Sound)
    (h : Tended c false (need + 4) p) (input : List Sample) :
    Ends (Call.work input) p (fun _ q => Tended c false need q) (GaveUp c none) := by
  have hwork := h.workWith hc hphase input
  simp only [Ends, Call.workWith_demandPush input hp.ring] at hwork ⊢
  cases he : Call.work input p with
  | ok count q =>
      rw [he] at hwork
      exact hwork
  | error halt q =>
      rw [he] at hwork
      rcases hwork with ⟨fault, rfl⟩ | hgave
      · exact absurd he (Call.work_ne_fault hp fault)
      · exact hgave

theorem workWithin {count : Nat} {input : List Sample} (hc : c.Lawful)
    (hphase : c.phase = .streaming) (hp : p.sink.Sound) (hcount : input.length ≤ count)
    (h : Tended c false (4 * input.length) p) :
    Ends (Call.workWithin count input) p (fun _ q => Tended c false 0 q) (GaveUp c none) := by
  induction count generalizing input p with
  | zero =>
      obtain rfl : input = [] := List.length_eq_zero_iff.mp (Nat.le_zero.mp hcount)
      exact h
  | succ count ih =>
      cases input with
      | nil => exact h
      | cons s rest =>
          have hneed : Tended c false (4 * rest.length + 4) p := h.weaken (Nat.le_refl _)
          have hwork := hneed.work hc hphase hp (s :: rest)
          have hends := Call.work_ends (s :: rest) hp
          simp only [Ends] at hwork hends ⊢
          simp only [Call.workWithin]
          cases he : Call.work (s :: rest) p with
          | error halt q =>
              rw [he] at hwork
              exact hwork
          | ok taken q =>
              rw [he] at hwork hends
              have hdrop := dropExactly_eq_ok_iff.mpr ⟨hends.count_le, rfl⟩
              have hpos := hends.count_pos hp (List.cons_ne_nil _ _)
              have hlen : ((s :: rest).drop taken).length + taken = rest.length + 1 := by
                rw [List.length_drop, List.length_cons]
                have hle := hends.count_le
                rw [List.length_cons] at hle
                omega
              simp only [hdrop]
              refine ih (hends.flow hp).1 ?_ (hwork.weaken ?_)
              · rw [List.length_cons] at hcount
                omega
              · omega

/-- Taking in an input needs four pauses for a sample at most. -/
theorem workAll {input : List Sample} (hc : c.Lawful) (hphase : c.phase = .streaming)
    (hp : p.sink.Sound) (h : Tended c false (4 * input.length) p) :
    Ends (Call.workAll input) p (fun _ q => Tended c false 0 q) (GaveUp c none) :=
  h.workWithin hc hphase hp (Nat.le_refl _)

end Tended

end IqTransmit
