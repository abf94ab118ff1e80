import IqTransmit.Proofs.Sink.AfterStop
import IqTransmit.Proofs.Sink.Flush

/-!
What all calls keep. A property of sinks that is kept by drains, reports and pushes, whatever
becomes of the scratch slot and the converter, is kept by every call that only fills or drains,
whoever moves meanwhile and however the call ends. Of the engine nothing is known but how it changes.
-/

namespace IqTransmit

variable {E α : Type}

namespace Action

/-- The engines with which an action may end, as its pulls are answered. -/
inductive Yields : Action E α → E → Prop where
  | finish (result : α) (engine : E) : Yields (.finish result engine) engine
  | pull {dest : List Int8} {resume : Pulled → Action E α} {engine : E} (pulled : Pulled) :
      Yields (resume pulled) engine → Yields (.pull dest resume) engine

theorem yields_of_run {action : Action E α} {f g : Feed} {result : α} {engine : E}
    (he : action.run Feed.pull f = .ok (result, engine) g) : action.Yields engine := by
  induction action generalizing f with
  | finish result engine =>
      cases he
      exact .finish result engine
  | pull dest resume ih =>
      rw [run] at he
      cases hpull : Feed.pull dest f with
      | error fault h =>
          rw [hpull] at he
          cases he
      | ok pulled h =>
          rw [hpull] at he
          exact .pull pulled (ih pulled he)

end Action

/-- Engines change by themselves, and when they are asked or stopped, only as `becomes` says. -/
structure Changes [TransferEngine E] (becomes : E → E → Prop) : Prop where
  poll : ∀ e : E, becomes e (TransferEngine.poll e).2
  advance : ∀ e after : E, (TransferEngine.advance e).Yields after → becomes e after
  stop : ∀ e after : E, (TransferEngine.stop e).Yields after → becomes e after

theorem changes_anyhow [TransferEngine E] : Changes fun _ _ : E => True :=
  ⟨fun _ => trivial, fun _ _ _ => trivial, fun _ _ _ => trivial⟩

/-- A property of sinks that drains, reports and pushes keep, and engines that change as `becomes`
says. It is about neither the scratch slot nor the converter. -/
structure Steady (becomes : E → E → Prop) (P : TransmitSink E → Prop) : Prop where
  drain : ∀ {s : TransmitSink E} {drainer : Drainer} {dest : List Int8} {delivery : Delivery}
    {g : Feed}, P s → s.feed.ring.Sound → Feed.drain drainer dest s.feed = .ok delivery g →
    P { s with feed := g }
  report : ∀ {s : TransmitSink E} (notice : Notice), P s → P (s.report notice)
  enqueue : ∀ {s : TransmitSink E}, P s → s.feed.ring.Sound → s.feed.ring.hasRoom = true →
    s.scratch.length = s.feed.ring.slotSize → P { s with feed := s.feed.enqueue s.scratch }
  engine : ∀ {s : TransmitSink E} {engine after : E}, P s → s.engine = some engine →
    becomes engine after → P { s with engine := some after }
  scratch : ∀ {s : TransmitSink E} (scratch : Slot) (fillOffset : Nat), P s →
    P { s with scratch, fillOffset }
  converter : ∀ {s : TransmitSink E} (converter : Cs8.Converter), P s → P { s with converter }

variable {becomes : E → E → Prop} {P : TransmitSink E → Prop} {s : TransmitSink E}

theorem Steady.drained (h : Steady becomes P) (hp : P s) (hs : s.feed.ring.Sound) {g : Feed}
    (hd : s.feed.Drained g) : P { s with feed := g } := by
  induction hd with
  | refl => exact hp
  | @drain g _ _ _ _ hbefore he ih =>
      exact h.drain (s := { s with feed := g }) ih (hbefore.sound hs) he
  | @report g notice _ ih => exact h.report (s := { s with feed := g }) notice ih

/-- A property that has to do with the feed alone. -/
theorem steady_of_feed {P : Feed → Prop}
    (hdrain : ∀ {f g : Feed} {drainer : Drainer} {dest : List Int8} {delivery : Delivery}, P f →
      f.ring.Sound → Feed.drain drainer dest f = .ok delivery g → P g)
    (hreport : ∀ {f : Feed} (notice : Notice), P f → P (f.report notice))
    (henqueue : ∀ {f : Feed} (slot : Slot), P f → f.ring.Sound → f.ring.hasRoom = true →
      slot.length = f.ring.slotSize → P (f.enqueue slot)) :
    Steady becomes fun s => P s.feed where
  drain := hdrain
  report := hreport
  enqueue hp := henqueue _ hp
  engine hp _ _ := hp
  scratch _ _ hp := hp
  converter _ hp := hp

namespace Call

open TransmitSink (Moved asked_report fill_scratch_length)

variable {call : Call E α} {p q : Progress E}

/-- However a call ends, `P` holds of the sink then. -/
abbrev Preserves (P : TransmitSink E → Prop) (call : Call E α) (p : Progress E) : Prop :=
  Ends call p (fun _ q => P q.sink) (fun _ q => P q.sink)

/-- During a call: the ring is sound, and `P` holds. -/
abbrev Held (P : TransmitSink E → Prop) (s : TransmitSink E) : Prop := s.feed.ring.Sound ∧ P s

/-! ### Moves of others -/

theorem act_keeps (h : Steady becomes P) (action : E → Action E α) (absent : α)
    (hyields : ∀ e after, (action e).Yields after → becomes e after) (hp : Held P p.sink) :
    Ends (act action absent) p (fun _ q => Held P q.sink) never := by
  simp only [Ends, act]
  cases hengine : p.sink.engine with
  | none => exact hp
  | some engine =>
      obtain ⟨result, after, feed, hrun, hdrained⟩ := (action engine).run_drained hp.1
      simp only [hrun]
      exact ⟨hdrained.sound hp.1, h.engine (h.drained hp.2 hp.1 hdrained) hengine
        (hyields _ _ (Action.yields_of_run hrun))⟩

variable [TransferEngine E] (hchanges : Changes becomes) (h : Steady becomes P)

section Others

include hchanges h

theorem askEngine_keeps (hp : Held P p.sink) :
    Ends askEngine p (fun _ q => Held P q.sink) never := by
  simp only [Ends, askEngine]
  cases hengine : p.sink.engine with
  | none => exact hp
  | some engine => exact ⟨hp.1, h.engine hp.2 hengine (hchanges.poll engine)⟩

theorem move_keeps (m : Move) (hp : Held P p.sink) :
    Ends (move m) p (fun _ q => Held P q.sink) never := by
  cases m with
  | engine => exact act_keeps h _ _ hchanges.advance hp
  | drain dest =>
      obtain ⟨delivery, g, _, he, hflow, _⟩ := Feed.drain_flow hp.1 .other dest
      have hdrain : TransmitSink.drain .other dest p.sink =
          .ok delivery { p.sink with feed := g } := by
        rw [TransmitSink.drain, he]
      simp only [Ends, move]
      simp only [hdrain]
      exact ⟨hflow.sound, h.drain hp.2 hp.1 he⟩

theorem moveAll_keeps (moves : List Move) (hp : Held P p.sink) :
    Ends (moveAll moves) p (fun _ q => Held P q.sink) never := by
  induction moves generalizing p with
  | nil => exact hp
  | cons m rest ih =>
      rw [moveAll_cons]
      exact (move_keeps hchanges h m hp).seq_never fun _ _ hq => ih hq

theorem gap_keeps (hp : Held P p.sink) : Ends gap p (fun _ q => Held P q.sink) never := by
  simp only [Ends, gap]
  cases p.gaps with
  | nil => exact hp
  | cons moves rest => exact moveAll_keeps hchanges h (p := { p with gaps := rest }) moves hp

/-! ### Waits -/

theorem takePause_keeps (limit : Option Duration) (next : Pause) (rest : List Pause)
    (hp : Held P p.sink) : Preserves (Held P) (takePause limit next rest) p := by
  have hmoves : Preserves (Held P) (moveAll next.moves) { p with pauses := rest } :=
    (moveAll_keeps hchanges h (p := { p with pauses := rest }) next.moves hp).imp
      (fun _ _ hq => hq) fun _ _ hn => hn.elim
  cases limit with
  | none => exact hmoves
  | some time =>
      by_cases hlate : time.nanoseconds ≤ next.elapsed.nanoseconds
      · simp only [Preserves, Ends, takePause, pause, if_pos hlate]
        exact ⟨hp.1, h.report (.stopLate time) hp.2⟩
      · simp only [Preserves, Ends, takePause, pause, if_neg hlate]
        exact hmoves

/-- A wait keeps what its question and its look keep. -/
theorem waitUntil_keeps {asked : Call E Bool} {look : Call E Unit} (limit : Option Duration)
    (hasked : ∀ p : Progress E, Held P p.sink → Preserves (Held P) asked p)
    (hlook : ∀ p : Progress E, Held P p.sink → Preserves (Held P) look p) (hp : Held P p.sink) :
    Preserves (Held P) (waitUntil asked look limit) p := by
  refine waitThrough_rule (fun _ p => Held P p.sink) (fun _ p => Held P p.sink) ?_ ?_ ?_ hp
  · intro _ p hp
    exact (hasked p hp).imp (fun _ q hq => ⟨fun _ => hq, fun _ => hlook q hq⟩) fun _ _ hq => hq
  · exact fun _ hp => hp
  · exact fun next rest p hp => takePause_keeps hchanges h limit next rest hp

theorem lookToWork_keeps (hp : Held P p.sink) : Preserves (Held P) lookToWork p := by
  refine Ends.step (sink_eq p) ?_
  by_cases hphase : p.sink.phase = .streaming
  · rw [if_pos hphase]
    refine (askEngine_keeps hchanges h hp).seq_never ?_
    intro streams q hq
    cases streams with
    | true => exact hq
    | false => exact ⟨hq.1, h.report _ hq.2⟩
  · rw [if_neg hphase]
    exact hp

theorem awaitRoom_keeps (hp : Held P p.sink) : Preserves (Held P) awaitRoom p :=
  waitUntil_keeps hchanges h none (fun _ hp => hp) (fun _ hp => lookToWork_keeps hchanges h hp) hp

theorem lookToStop_keeps (hp : Held P p.sink) :
    Preserves (Held P) (do unless ← askEngine do fail .engineStopped) p := by
  refine (askEngine_keeps hchanges h hp).seq_never ?_
  intro streams q hq
  cases streams with
  | true => exact hq
  | false => exact hq

theorem awaitRoomToStop_keeps (hp : Held P p.sink) : Preserves (Held P) awaitRoomToStop p :=
  Ends.step (sink_eq p) (waitUntil_keeps hchanges h _ (fun _ hp => hp)
    (fun _ hp => lookToStop_keeps hchanges h hp) hp)

theorem awaitEnd_keeps (hp : Held P p.sink) : Preserves (Held P) awaitEnd p := by
  refine Ends.step (sink_eq p) (waitUntil_keeps hchanges h _ ?_ (fun _ hp => hp) hp)
  intro q hq
  exact (askEngine_keeps hchanges h hq).seq_never fun _ _ hr => hr

end Others

/-! ### Filling -/

section Filling

include hchanges h

theorem work_keeps (input : List Sample) (hs : p.sink.Sound) (hp : P p.sink) :
    Preserves P (work input) p := by
  rw [Preserves, work_eq]
  refine ((gap_ends hs.ring).and (gap_keeps hchanges h ⟨hs.ring, hp⟩)).seq ?_
    fun _ _ hn => hn.1.elim
  rintro _ q ⟨hq, hheld⟩
  refine ((awaitRoom_ends hheld.1).and (awaitRoom_keeps hchanges h hheld)).seq ?_
    fun _ _ hh => hh.2.2
  rintro _ r ⟨⟨hr, hroom⟩, hheld⟩
  have hs := (hq.trans hr).sound hs
  rcases Nat.lt_or_ge input.length r.sink.free with hlt | hle
  · exact .of_ok (takeBatch_of_short hs hlt) (h.scratch _ _ hheld.2)
  · have hlen : (input.take r.sink.free).length = r.sink.free := List.length_take_of_le hle
    simp only [Ends, takeBatch_of_long hs hle]
    -- the slot is complete, and there still is room for it after the gap
    refine ((gap_ends (p := { r with sink := r.sink.fill _ }) hs.ring).and (gap_keeps hchanges h
      (p := { r with sink := r.sink.fill _ }) ⟨hs.ring, h.scratch _ _ hheld.2⟩)).seq ?_
      fun _ _ hn => hn.1.elim
    rintro _ t ⟨ht, hheld⟩
    obtain ⟨_, hflow, _⟩ := ht.drained.flow hs.ring
    have hroom := ht.drained.hasRoom hs.ring hroom
    have hscratch : t.sink.scratch.length = t.sink.feed.ring.slotSize := by
      rw [ht.scratch_eq, fill_scratch_length hs hlen.le, hs.scratch_length]
      exact hflow.slotSize_eq.symm
    exact Ends.step (pushScratch_of_room hheld.1 hroom hscratch)
      (h.scratch _ _ (h.enqueue hheld.2 hheld.1 hroom hscratch))

theorem Rounds.keeps {input rest : List Sample} (hr : Rounds input p rest q) (hs : p.sink.Sound)
    (hp : P p.sink) : P q.sink := by
  induction hr with
  | refl => exact hp
  | step hr he ih => exact (work_keeps hchanges h _ (hr.sound hs) ih).ok he

theorem workAll_keeps (input : List Sample) (hs : p.sink.Sound) (hp : P p.sink) :
    Preserves P (workAll input) p := by
  apply (workAll_ends input hs).imp
  · exact fun _ _ hr => hr.keeps hchanges h hs hp
  · rintro _ _ ⟨rest, r, _, hr, he⟩
    exact (work_keeps hchanges h rest (hr.sound hs) (hr.keeps hchanges h hs hp)).error he

end Filling

/-! ### Stops -/

section Stops

include hchanges h

theorem queueTail_keeps (hs : p.sink.Sound) (hp : P p.sink) : Preserves P queueTail p := by
  have hrule : FlushRule (fun _ (q : Progress E) => Held P q.sink)
      (fun _ q => Held P q.sink ∧ q.sink.feed.ring.hasRoom = true)
      (fun halt q => (∃ fault, halt = .fault fault) ∨ P q.sink) := by
    refine ⟨?_, ?_, fun _ _ _ hq => ⟨⟨hq.1.1, h.scratch _ _ hq.1.2⟩, hq.2⟩,
      fun _ _ _ hq => ⟨hq.1, h.scratch _ _ hq.2⟩, fun fault _ => .inl ⟨fault, rfl⟩⟩
    · intro _ q hq
      apply ((awaitRoomToStop_ends hq.1).and (awaitRoomToStop_keeps hchanges h hq)).imp
      · exact fun _ _ hr => ⟨hr.2, hr.1.2⟩
      · exact fun _ _ hr => .inr hr.2.2
    · rintro _ q ⟨hq, hroom⟩
      apply (pushScratch_cases hq.1 hroom).imp
      · rintro _ _ ⟨_, hlen, rfl⟩
        exact ⟨hq.1.enqueue hroom, h.enqueue hq.2 hq.1 hroom hlen⟩
      · exact fun _ _ hfault => .inl hfault
  apply ((queueTail_ends hs).and (hrule.queueTail_ends (p := p) ⟨hs.ring, hp⟩)).imp
  · exact fun _ _ hq => hq.2.2
  · rintro halt q ⟨⟨_, _, hcause⟩, ⟨fault, rfl⟩ | hq⟩
    · rcases hcause with hwait | ⟨_, _, hlate⟩ | hgone
      · cases hwait
      · cases hlate
      · cases hgone
    · exact hq

variable (hphase : ∀ {s : TransmitSink E} (phase : Phase), P s → P { s with phase })
include hphase

theorem stopEngine_keeps (flushed : Except SinkError Unit) (hp : Held P p.sink) :
    Preserves P (stopEngine flushed) p := by
  refine (gap_keeps hchanges h hp).seq_never fun _ q hq => ?_
  refine (act_keeps h _ _ hchanges.stop hq).seq_never fun ended r hr => ?_
  have hstopped := h.report (.streamingStopped r.sink.feed.stats.drained
    r.sink.feed.stats.underruns r.sink.feed.stats.deferred) (hphase .stopped hr.2)
  refine Ends.step rfl (Ends.step rfl (Ends.step rfl ?_))
  cases ended with
  | error problem =>
      refine Ends.step rfl ?_
      cases flushed with
      | error error => exact h.report (.stopFailed problem) hstopped
      | ok _ => exact h.report (.stopFailed problem) hstopped
  | ok _ =>
      cases flushed with
      | error error => exact hstopped
      | ok _ => exact hstopped

/-- A stop keeps what does not depend on the phase either, nor on the mark of the stream. -/
theorem stop_keeps (now : Instant)
    (hstopping : ∀ {s : TransmitSink E}, P s → P { s with feed.stopping := true })
    (hs : p.sink.Sound) (hp : P p.sink) : Preserves P (stopAt now) p := by
  simp only [Preserves, stopAt]
  refine Ends.step (sink_eq p) ?_
  cases hengine : p.sink.engine with
  | none => exact hp
  | some engine =>
      simp only
      by_cases hstreaming : p.sink.phase = .streaming
      · rw [if_pos hstreaming]
        refine Ends.step rfl ?_
        have hsound := hs.withPhase .stopping
        have hflush : Preserves (Held P) (attempt (flushAndWait now))
            { p with sink := { p.sink with phase := .stopping } } := by
          refine Ends.byDeadline (Ends.attempt_same (P := Held P) ?_)
            fun _ => ⟨hs.ring, hphase .stopping hp⟩
          rw [flush_eq]
          apply ((queueTail_ends hsound).and
            (queueTail_keeps hchanges h hsound (hphase .stopping hp))).seq
          · rintro _ q ⟨hq, hkept⟩
            refine Ends.step rfl ?_
            exact awaitEnd_keeps hchanges h
              (p := { q with sink := { q.sink with feed.stopping := true } })
              ⟨hq.sound.ring, hstopping hkept⟩
          · rintro _ q ⟨⟨⟨_, haccount, _⟩, _⟩, hkept⟩
            exact ⟨haccount.sound.ring, hkept⟩
        exact hflush.seq (fun flushed q hq => stopEngine_keeps hchanges h hphase flushed hq)
          fun _ _ hq => hq.2
      · rw [if_neg hstreaming]
        exact hp

end Stops

end Call

/-! ### Any call -/

theorem Steady.withStrategy (h : Steady becomes P) (hp : P s) (strategy : Cs8.Strategy) :
    P (s.withStrategy strategy) := by
  have hconverted := h.converter (.ofStrategy strategy) hp
  simp only [TransmitSink.withStrategy]
  generalize Cs8.Converter.noticesOf strategy = notices
  generalize { s with converter := .ofStrategy strategy } = t at hconverted
  induction notices generalizing t with
  | nil => exact hconverted
  | cons notice rest ih => exact ih _ (h.report notice hconverted)

/-- If it is an action of the engine, it changes the engine as `becomes` says. -/
def Operation.Within (becomes : E → E → Prop) : Operation E → Prop
  | .act action => ∀ e after, (action e).Yields after → becomes e after
  | .bind _ | .useStrategy _ | .start | .drain .. | .work .. | .workAll .. | .stop .. => True

theorem Operation.within_anyhow (operation : Operation E) :
    operation.Within fun _ _ => True := by
  cases operation <;> simp [Within]

/-- A call keeps `P`, however it ends, if a bind, a start or a stop of a sink that streams does. -/
theorem Operation.perform_keeps [TransferEngine E] (hchanges : Changes becomes)
    (h : Steady becomes P) (hs : s.Sound) (hp : P s) (operation : Operation E)
    (hwithin : operation.Within becomes)
    (hbind : ∀ engine, operation = .bind engine → P (s.bind engine).2)
    (hstart : operation = .start → P s.start.2)
    (hstop : ∀ pauses gaps now, operation = .stop pauses gaps now → s.phase = .streaming →
      Call.Preserves P (Call.stopAt now) ⟨s, pauses, gaps⟩) : P (operation.perform s).2 := by
  cases operation with
  | bind engine => exact hbind engine rfl
  | useStrategy strategy => exact h.withStrategy hp strategy
  | start => exact hstart rfl
  | drain drainer dest =>
      obtain ⟨delivery, g, _, he, _, _⟩ := Feed.drain_flow hs.ring drainer dest
      have hdrain : s.drain drainer dest = .ok delivery { s with feed := g } := by
        rw [TransmitSink.drain, he]
      simp only [perform, hdrain]
      exact h.drain hp hs.ring he
  | act action =>
      apply ofCall_keeps
      apply (Call.act_keeps h action (.ok ()) hwithin (p := { sink := s }) ⟨hs.ring, hp⟩).imp
      · exact fun _ _ hq => hq.2
      · exact fun _ _ hn => hn.elim
  | work input pauses gaps =>
      exact ofCall_keeps (Call.work_keeps hchanges h (p := ⟨s, pauses, gaps⟩) input hs
        hp).attempt_same
  | workAll input pauses gaps =>
      exact ofCall_keeps (Call.workAll_keeps hchanges h (p := ⟨s, pauses, gaps⟩) input hs
        hp).attempt_same
  | stop pauses gaps now =>
      by_cases hphase : s.phase = .streaming
      · exact ofCall_keeps (hstop pauses gaps now rfl hphase).attempt_same
      · obtain ⟨_, hsame⟩ := Call.stop_of_not_streaming (p := ⟨s, pauses, gaps⟩) now hphase
        exact ofCall_keeps (.of_ok hsame hp)

end IqTransmit
