import IqTransmit.Proofs.Sink.Delivery

/-!
When a drain is told of the end of the stream. The drains of a sink meet its feed between two
calls, while a stop waits, and once its flush is over. A drain of a whole slot is told of the end
only at an empty ring; one of any other length is told as soon as the stream is marked as stopping,
whatever the ring still holds.
-/

namespace IqTransmit

variable {E : Type}

open TransmitSink (Reachable Invariant make)
open Call (Ends attempt flushAndWait stopAt)

/-! ### Sound rings during a stop -/

namespace Call

variable {p : Progress E} {now : Instant}

variable [TransferEngine E]

/-- The ring stays sound during the flush of a stop. -/
theorem flush_sound (now : Instant) (h : p.sink.Invariant) :
    Ends (flushAndWait now) { p with sink := { p.sink with phase := .stopping } }
      (fun _ q => q.sink.feed.ring.Sound) (fun _ q => q.sink.feed.ring.Sound) := by
  rcases flushAndWait_cases now { p with sink := { p.sink with phase := .stopping } } with
    ⟨_, _, he⟩ | ⟨_, he⟩
  swap
  · exact .of_error he h.ring
  refine Ends.congr ?_ he
  rw [flush_eq]
  apply (queueTail_ends (p := { p with sink := { p.sink with phase := .stopping } })
    (h.toSound.withPhase .stopping)).seq
  · intro _ q hq
    refine Ends.step rfl ?_
    apply (awaitEnd_ends (p := { q with sink := { q.sink with feed.stopping := true } })
      hq.sound.ring).imp
    · intro _ r hr
      exact hr.drained.sound hq.sound.ring
    · rintro _ r ⟨hr, _⟩
      exact hr.drained.sound hq.sound.ring
  · rintro _ q ⟨⟨_, haccount, _⟩, _⟩
    exact haccount.sound.ring

/-- Only its flush leaves a stop waiting. -/
theorem flush_of_stop_waiting {q : Progress E} (h : p.sink.Invariant)
    (he : stopAt now p = .error .waiting q) :
    flushAndWait now { p with sink := { p.sink with phase := .stopping } } = .error .waiting q := by
  by_cases hphase : p.sink.phase = .streaming
  · rw [stop_of_streaming hphase (h.bound_of_streaming hphase)] at he
    have hflush := flushAndWait_ends now
      (p := { p with sink := { p.sink with phase := .stopping } }) (h.toSound.withPhase .stopping)
    cases hf : attempt (flushAndWait now) { p with sink := { p.sink with phase := .stopping } } with
    | ok flushed r =>
        rw [bind_of_ok hf] at he
        obtain ⟨_, hr⟩ := hflush.ok hf
        obtain ⟨_, hcause⟩ := (stopEngine_ends flushed hr.accounted.sound.ring).error he
        rcases hcause with ⟨_, _, hhalt⟩ | ⟨_, _, hhalt⟩
        · cases hhalt
        · cases hhalt
    | error halt r =>
        rw [bind_of_error hf] at he
        cases he
        exact attempt_eq_waiting hf
  · obtain ⟨result, hsame⟩ := stop_of_not_streaming now hphase
    simp only [attempt, he] at hsame
    cases hsame

end Call

/-! ### The feeds that drains meet -/

namespace Feed

variable [TransferEngine E] {f g : Feed}

/-- The feeds of the sinks over engines of type `E` that a drain can meet: between two calls, while
a stop waits, and before a stop ends the engine. Others may have drained before. During the other
calls the feed changes at the very end only, but for what others drain. -/
inductive Exposed (E : Type) [TransferEngine E] : Feed → Prop where
  | between {s : TransmitSink E} : Reachable s → Exposed E s.feed
  | waiting {p q : Progress E} {now : Instant} :
      Reachable p.sink → stopAt now p = .error .waiting q → Exposed E q.sink.feed
  | flushed {p q : Progress E} {now : Instant} {result : Except SinkError Unit} :
      Reachable p.sink → p.sink.phase = .streaming →
      attempt (flushAndWait now) { p with sink := { p.sink with phase := .stopping } } = .ok result q →
      Exposed E q.sink.feed
  | drained {f g : Feed} : Exposed E f → Drained f g → Exposed E g

theorem Exposed.sound (h : Exposed E f) : f.ring.Sound := by
  induction h with
  | between hr => exact hr.invariant.ring
  | waiting hr he =>
      exact (Call.flush_sound _ hr.invariant).error (Call.flush_of_stop_waiting hr.invariant he)
  | @flushed p q now result hr _ he =>
      have hends := Call.flush_sound now hr.invariant
      rcases Call.attempt_eq_ok he with ⟨_, _, hflush⟩ | ⟨_, _, hflush⟩
      · exact hends.ok hflush
      · exact hends.error hflush
  | drained _ hd ih => exact hd.sound ih

/-- A drain is told of the end of the stream just if the stream is stopping and, if it asks for a
whole slot, the ring is empty. A drain that asks for anything else is told at queued slots too. -/
theorem drain_terminates_iff (h : Exposed E f) (drainer : Drainer) (dest : List Int8) :
    ∃ delivery g, drain drainer dest f = .ok delivery g ∧
      (delivery.status = .terminate ↔
        f.stopping = true ∧ (dest.length = f.ring.slotSize → f.ring.contents = [])) := by
  have hempty : f.ring.contents = [] ↔ f.ring.isEmpty = true := SlotRing.contents_eq_nil_iff _
  rcases drain_cases h.sound drainer dest with ⟨hs, he⟩ | ⟨hs, hstop, he⟩ | ⟨_, hflows, he⟩
  · refine ⟨_, _, he, ?_⟩
    constructor
    · nofun
    · intro hend
      cases hs.2.symm.trans (hempty.mp (hend.2 hs.1))
  · refine ⟨_, _, he, ?_⟩
    simp only [hstop, true_and, true_iff]
    intro hsize
    rw [hempty]
    by_contra hne
    exact hs ⟨hsize, by simpa using hne⟩
  · refine ⟨_, _, he, ?_⟩
    simp [hflows]

/-- The state in which a stop is left waiting. -/
def duringStop (p : Progress Steered) : Option (Progress Steered) :=
  match stopAt ⟨0⟩ p with
  | .error .waiting q => some q
  | _ => none

theorem duringStop_eq {α : Type} (view : Progress Steered → α) {a : α} {p : Progress Steered}
    (h : (duringStop p).map view = some a) : ∃ q, stopAt ⟨0⟩ p = .error .waiting q ∧ view q = a := by
  obtain ⟨q, hq, hview⟩ := Option.map_eq_some_iff.mp h
  refine ⟨q, ?_, hview⟩
  simp only [duringStop] at hq
  split at hq
  case h_1 r hr =>
    rw [hr, Option.some.inj hq]
  case h_2 => cases hq

/-- Others have drained all that a stop has queued. -/
theorem drain_terminates_during_stop :
    ∃ (sink : TransmitSink Steered) (pauses : List Pause) (q : Progress Steered)
      (delivery : Delivery) (g : Feed),
      Reachable sink ∧ stopAt ⟨0⟩ ⟨sink, pauses, []⟩ = .error .waiting q ∧ q.sink.phase = .stopping ∧
        q.sink.feed.drain .engine [1, 2, 3, 4] = .ok delivery g ∧ delivery.status = .terminate := by
  have hmade := Reachable.make (rfl : make { bufferCount := 8, slotSize := 4 }
    (some ({ transferSize := 4 } : Steered)) = .ok _)
  obtain ⟨sink, hr, hrun⟩ : ∃ sink : TransmitSink Steered, Reachable sink ∧
      (duringStop ⟨sink, [{ moves := List.replicate 6 (.drain [1, 2, 3, 4]) }], []⟩).map
        (fun q => (q.sink.phase, q.sink.feed.stopping, q.sink.queue)) =
          some (.stopping, true, []) :=
    ⟨_, hmade.start, by decide +kernel⟩
  obtain ⟨q, hq, hview⟩ := duringStop_eq _ hrun
  obtain ⟨hphase, hview⟩ := Prod.mk.inj hview
  obtain ⟨hstop, hempty⟩ := Prod.mk.inj hview
  obtain ⟨delivery, g, hdrain, hend⟩ :=
    drain_terminates_iff (.waiting (p := ⟨_, _, _⟩) hr hq) .engine [1, 2, 3, 4]
  exact ⟨sink, _, q, delivery, g, hr, hq, hphase, hdrain, hend.mpr ⟨hstop, fun _ => hempty⟩⟩

/-- A stop has queued its six slots and waits for the engine to end. A drain of two bytes too many
is told of the end of the stream, and the six slots are all still there. -/
theorem drain_terminates_at_queued_slots :
    ∃ (sink : TransmitSink Steered) (q : Progress Steered) (g : Feed),
      Reachable sink ∧ stopAt ⟨0⟩ ⟨sink, [], []⟩ = .error .waiting q ∧ q.sink.queued = 6 ∧
        q.sink.feed.drain .other [1, 2, 3, 4, 5, 6] = .ok ⟨.terminate, [0, 0, 0, 0, 0, 0]⟩ g ∧
        g.ring.len = 6 := by
  have hmade := Reachable.make (rfl : make { bufferCount := 8, slotSize := 4 }
    (some ({ transferSize := 4 } : Steered)) = .ok _)
  obtain ⟨sink, hr, hrun⟩ : ∃ sink : TransmitSink Steered, Reachable sink ∧
      (duringStop ⟨sink, [], []⟩).map (fun q => (q.sink.queued, q.sink.feed.stopping,
        q.sink.feed.ring.slotSize)) = some (6, true, 4) :=
    ⟨_, hmade.start, by decide +kernel⟩
  obtain ⟨q, hq, hview⟩ := duringStop_eq _ hrun
  obtain ⟨hqueued, hview⟩ := Prod.mk.inj hview
  obtain ⟨hstop, hsize⟩ := Prod.mk.inj hview
  have hserves : ¬ q.sink.feed.Serves ([1, 2, 3, 4, 5, 6] : List Int8).length := by
    rintro ⟨hlen, _⟩
    rw [hsize] at hlen
    cases hlen
  have hdrain := drain_of_not_serves hserves .other
  simp only [silence, hstop, if_true] at hdrain
  exact ⟨sink, q, _, hr, hq, hqueued, hdrain, hqueued⟩

end Feed

end IqTransmit
