import IqTransmit.Proofs.Sink.Start
import IqTransmit.Proofs.Sink.Stop
import IqTransmit.Proofs.Sink.Work

/-!
The states of a sink between its calls, whatever calls there were and whatever others did during
them, and what holds of all of these states.
-/

namespace IqTransmit

variable {E : Type}

namespace TransmitSink

variable {s t : TransmitSink E}

/-- What every call keeps: a sound sink whose ring and phase agree with its configuration, its
engine and its stopping flag, and that has never been refused a push. -/
structure Invariant (s : TransmitSink E) : Prop extends Sound s where
  capacity_eq : s.feed.ring.capacity = s.config.bufferCount
  slotSize_eq : s.feed.ring.slotSize = s.config.slotSize
  bound : s.phase ≠ .idle → s.engine.isSome = true
  settled : s.phase ≠ .stopping
  flowing : s.phase ≠ .stopped → s.feed.stopping = false
  deferred_eq : s.feed.stats.deferred = 0

theorem validate_eq_ok {config : SinkConfig} (h : config.validate = .ok ()) :
    0 < config.bufferCount ∧ 0 < config.slotSize ∧ 2 ∣ config.slotSize := by
  simp only [SinkConfig.validate] at h
  split at h
  · cases h
  · split at h
    · cases h
    · omega

theorem Invariant.bound_of_streaming (h : s.Invariant) (hphase : s.phase = .streaming) :
    s.engine.isSome = true := by
  refine h.bound ?_
  rw [hphase]
  nofun

/-- A flow of slots keeps the invariant if the rest of the sink agrees. -/
theorem Invariant.of_flow {pushed popped : List Slot} (h : s.Invariant) (ht : t.Sound)
    (hflow : s.feed.Flow t.feed pushed popped) (hstop : t.feed.stopping = s.feed.stopping)
    (hphase : t.phase = s.phase) (hconfig : t.config = s.config)
    (hbound : t.engine.isSome = s.engine.isSome) : t.Invariant := by
  refine ⟨ht, ?_, ?_, ?_, ?_, ?_, hflow.deferred_eq.trans h.deferred_eq⟩
  · rw [hflow.capacity_eq, hconfig, h.capacity_eq]
  · rw [hflow.slotSize_eq, hconfig, h.slotSize_eq]
  · rw [hphase, hbound]
    exact h.bound
  · rw [hphase]
    exact h.settled
  · rw [hphase, hstop]
    exact h.flowing

theorem Moved.invariant (hm : Moved s t) (h : s.Invariant) : t.Invariant := by
  obtain ⟨_, hflow, hstop⟩ := hm.drained.flow h.ring
  exact h.of_flow (hm.sound h.toSound) hflow hstop hm.phase_eq hm.config_eq hm.bound

theorem Worked.invariant {input : List Sample} {count : Nat} (hw : Worked input s count t)
    (h : s.Invariant) : t.Invariant := by
  obtain ⟨ht, _, _, hflow, _, hstop⟩ := hw.flow h.toSound
  exact h.of_flow ht hflow hstop hw.phase_eq hw.config_eq hw.bound

theorem invariant_make {config : SinkConfig} {engine : Option E}
    (h : make config engine = .ok s) : s.Invariant := by
  simp only [make] at h
  cases hvalid : config.validate with
  | error error =>
      rw [hvalid] at h
      cases h
  | ok _ =>
      rw [hvalid] at h
      obtain ⟨_, hpos, heven⟩ := validate_eq_ok hvalid
      cases hring : SlotRing.make config.bufferCount config.slotSize with
      | error fault =>
          rw [hring] at h
          cases h
      | ok ring =>
          rw [hring] at h
          obtain ⟨_, _, _, rfl⟩ := SlotRing.make_eq_ok_iff.mp hring
          have hinv : Invariant
              { engine
                feed := { ring := _ }
                converter := .detect
                scratch := List.replicate config.slotSize 0
                fillOffset := 0
                phase := .idle
                config } :=
            ⟨⟨SlotRing.sound_of_make hring, List.length_replicate, heven, Nat.dvd_zero 2, hpos⟩,
              rfl, rfl, fun hidle => absurd rfl hidle, nofun, fun _ => rfl, rfl⟩
          simp only at h
          split at h
          · cases h
            exact hinv
          · cases h
            exact (asked_report _ _).invariant hinv

theorem invariant_withStrategy (h : s.Invariant) (strategy : Cs8.Strategy) :
    (s.withStrategy strategy).Invariant := by
  have hconverted : Invariant { s with converter := .ofStrategy strategy } :=
    ⟨h.toSound.of_ring h.ring rfl rfl rfl, h.capacity_eq, h.slotSize_eq, h.bound, h.settled,
      h.flowing, h.deferred_eq⟩
  simp only [withStrategy]
  generalize Cs8.Converter.noticesOf strategy = notices
  generalize { s with converter := .ofStrategy strategy } = t at hconverted
  induction notices generalizing t with
  | nil => exact hconverted
  | cons notice rest ih => exact ih _ ((asked_report t notice).invariant hconverted)

theorem invariant_bind (h : s.Invariant) (engine : E) : (s.bind engine).2.Invariant := by
  have hbound : Invariant { s with engine := some engine } :=
    ⟨h.toSound.of_ring h.ring rfl rfl rfl, h.capacity_eq, h.slotSize_eq, fun _ => rfl, h.settled,
      h.flowing, h.deferred_eq⟩
  simp only [bind]
  split
  · exact h
  · exact h
  · exact hbound
  · exact hbound

/-- A sink with the ring of a start and no pending bytes. -/
theorem invariant_of_start (h : s.Invariant) (engine : E) {phase : Phase}
    (hphase : phase ≠ .stopping) :
    Invariant { s with engine := some engine, feed := s.feedAtStart, fillOffset := 0, phase } := by
  have hring : s.feedAtStart.ring.Sound ∧ s.feedAtStart.ring.capacity = s.feed.ring.capacity ∧
      s.feedAtStart.ring.slotSize = s.feed.ring.slotSize := by
    rcases s.feedAtStart_ring with he | he
    · rw [he]
      exact ⟨h.ring, rfl, rfl⟩
    · rw [he]
      exact ⟨h.ring.clear, rfl, rfl⟩
  obtain ⟨hsound, hcapacity, hsize⟩ := hring
  refine ⟨⟨hsound, h.scratch_length.trans hsize.symm, ?_, Nat.dvd_zero 2, hsound.slotSize_pos⟩,
    hcapacity.trans h.capacity_eq, hsize.trans h.slotSize_eq, fun _ => rfl, hphase, fun _ => rfl,
    h.deferred_eq⟩
  rw [hsize]
  exact h.slotSize_even

variable [TransferEngine E]

theorem invariant_start (h : s.Invariant) : s.start.2.Invariant := by
  rcases s.start_cases with ⟨_, _, hstart, hfailed⟩ | ⟨_, hstart⟩ | ⟨_, _, after, _, _, _, hstart⟩
  · rw [hstart]
    cases hfailed with
    | unbound _ => exact h
    | mismatched _ _ _ => exact h
    | rejected _ _ _ _ => exact (asked_report _ _).invariant (invariant_of_start h _ h.settled)
  · rw [hstart]
    exact (asked_report s _).invariant h
  · rw [hstart]
    exact (asked_report _ _).invariant (invariant_of_start h after nofun)

end TransmitSink

open TransmitSink (Invariant)

namespace Call

variable [TransferEngine E] {p q : Progress E} {input rest : List Sample} {now : Instant}

theorem Rounds.invariant (hr : Rounds input p rest q) (h : p.sink.Invariant) :
    q.sink.Invariant := by
  induction hr with
  | refl => exact h
  | step _ he ih => exact ((work_ends _ ih.toSound).ok he).invariant ih

theorem invariant_work {result : Except SinkError Nat} (h : p.sink.Invariant)
    (he : attempt (work input) p = .ok result q) : q.sink.Invariant := by
  have hends := work_ends input h.toSound
  rcases attempt_eq_ok he with ⟨count, _, hwork⟩ | ⟨error, _, hwork⟩
  · exact (hends.ok hwork).invariant h
  · exact (hends.error hwork).moved.invariant h

theorem invariant_workAll {result : Except SinkError Unit} (h : p.sink.Invariant)
    (he : attempt (workAll input) p = .ok result q) : q.sink.Invariant := by
  have hends := workAll_ends input h.toSound
  rcases attempt_eq_ok he with ⟨_, _, hwork⟩ | ⟨error, _, hwork⟩
  · exact (hends.ok hwork).invariant h
  · obtain ⟨rest, r, _, hrounds, hlast⟩ := hends.error hwork
    have hr := hrounds.invariant h
    exact ((work_ends rest hr.toSound).error hlast).moved.invariant hr

/-- A sink that does not stream is left as it is. -/
theorem stop_of_not_streaming (now : Instant) (hphase : p.sink.phase ≠ .streaming) :
    ∃ result, attempt (stopAt now) p = .ok result p := by
  simp only [attempt, stopAt]
  rw [bind_of_ok (sink_eq p)]
  cases p.sink.engine with
  | none => exact ⟨_, rfl⟩
  | some engine =>
      simp only
      rw [if_neg hphase]
      exact ⟨_, rfl⟩

theorem invariant_of_stopped {flushed result : Except SinkError Unit} {queued : List Slot}
    {s t : TransmitSink E} (hstop : Stopped p flushed result queued s t) (h : p.sink.Invariant)
    (hphase : p.sink.phase = .streaming) : t.Invariant := by
  have haccount := (hstop.flush.accounted.withPhase .stopped).moved hstop.ended
  obtain ⟨_, hflow⟩ := haccount.flow
  have hended := hstop.ended.phase_eq
  refine ⟨haccount.sound, ?_, ?_, ?_, ?_, fun hne => absurd hended hne,
    hflow.deferred_eq.trans h.deferred_eq⟩
  · rw [haccount.config_eq]
    exact hflow.capacity_eq.trans h.capacity_eq
  · rw [haccount.config_eq]
    exact hflow.slotSize_eq.trans h.slotSize_eq
  · rw [haccount.bound]
    exact fun _ => h.bound_of_streaming hphase
  · rw [hended]
    nofun

theorem invariant_stop {result : Except SinkError Unit} (h : p.sink.Invariant)
    (he : attempt (stopAt now) p = .ok result q) : q.sink.Invariant := by
  by_cases hphase : p.sink.phase = .streaming
  · have hengine := h.bound_of_streaming hphase
    obtain ⟨flushed, queued, s, hstop⟩ := (stop_ends _ h.toSound hphase hengine).ok he
    exact invariant_of_stopped hstop h hphase
  · obtain ⟨_, hsame⟩ := stop_of_not_streaming now hphase
    rw [hsame] at he
    cases he
    exact h

end Call

namespace TransmitSink

variable [TransferEngine E] {s : TransmitSink E}

open Call (attempt)

/-- The sinks that any calls make, with whatever pauses and gaps and readings of the clock, and
drains and actions of the engine between them. A call that does not return has no sink after it. -/
inductive Reachable : TransmitSink E → Prop where
  | make {config : SinkConfig} {engine : Option E} {s : TransmitSink E} :
      make config engine = .ok s → Reachable s
  | withStrategy {s : TransmitSink E} (strategy : Cs8.Strategy) :
      Reachable s → Reachable (s.withStrategy strategy)
  | bind {s : TransmitSink E} (engine : E) : Reachable s → Reachable (s.bind engine).2
  | start {s : TransmitSink E} : Reachable s → Reachable s.start.2
  | drain {s t : TransmitSink E} {drainer : Drainer} {dest : List Int8} {delivery : Delivery} :
      Reachable s → s.drain drainer dest = .ok delivery t → Reachable t
  | act {α : Type} {p q : Progress E} {action : E → Action E α}
      {absent result : α} : Reachable p.sink → Call.act action absent p = .ok result q →
      Reachable q.sink
  | work {p q : Progress E} {input : List Sample} {result : Except SinkError Nat} :
      Reachable p.sink → attempt (Call.work input) p = .ok result q → Reachable q.sink
  | workAll {p q : Progress E} {input : List Sample} {result : Except SinkError Unit} :
      Reachable p.sink → attempt (Call.workAll input) p = .ok result q → Reachable q.sink
  | stop {p q : Progress E} {now : Instant} {result : Except SinkError Unit} :
      Reachable p.sink → attempt (Call.stopAt now) p = .ok result q → Reachable q.sink

theorem Reachable.invariant (h : Reachable s) : s.Invariant := by
  induction h with
  | make he => exact invariant_make he
  | withStrategy strategy _ ih => exact invariant_withStrategy ih strategy
  | bind engine _ ih => exact invariant_bind ih engine
  | start _ ih => exact invariant_start ih
  | drain _ he ih => exact (moved_of_drain he).invariant ih
  | act _ he ih => exact ((Call.act_ends _ _ ih.ring).ok he).invariant ih
  | work _ he ih => exact Call.invariant_work ih he
  | workAll _ he ih => exact Call.invariant_workAll ih he
  | stop _ he ih => exact Call.invariant_stop ih he

end TransmitSink

end IqTransmit
