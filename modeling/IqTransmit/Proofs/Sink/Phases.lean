import IqTransmit.Proofs.Sink.Frame
import IqTransmit.Proofs.Sink.Steps

/-!
What a start can do, and how the phase of a sink changes. Only a start leads to streaming, from idle
or stopped, and only a stop leads from streaming, to stopped. The configuration never changes.
-/

namespace IqTransmit

variable {E : Type}

/-- The phases before and after a call that returns. -/
inductive Transition : Operation E → Phase → Phase → Prop where
  | keep (operation : Operation E) (phase : Phase) : Transition operation phase phase
  | first : Transition .start .idle .streaming
  | again : Transition .start .stopped .streaming
  | stop (pauses : List Pause) (gaps : List (List Move)) (now : Instant) :
      Transition (.stop pauses gaps now) .streaming .stopped

theorem steady_phase (becomes : E → E → Prop) (phase : Phase) :
    Steady becomes fun s => s.phase = phase where
  drain hp _ _ := hp
  report _ hp := hp
  enqueue hp _ _ _ := hp
  engine hp _ _ := hp
  scratch _ _ hp := hp
  converter _ hp := hp

theorem steady_config (becomes : E → E → Prop) (config : SinkConfig) :
    Steady becomes fun s => s.config = config where
  drain hp _ _ := hp
  report _ hp := hp
  enqueue hp _ _ _ := hp
  engine hp _ _ := hp
  scratch _ _ hp := hp
  converter _ hp := hp

/-- A step that stops a sink that streams. -/
def SinkStep.StopsStream (step : SinkStep E) : Prop :=
  step.before.phase = .streaming ∧ ∃ pauses gaps now, step.operation = .stop pauses gaps now

namespace TransmitSink

variable {s t : TransmitSink E}

theorem phase_of_make {config : SinkConfig} {engine : Option E}
    (h : make config engine = .ok s) : s.phase = .idle := by
  simp only [make] at h
  repeat' split at h
  all_goals cases h
  all_goals rfl

theorem config_of_make {config : SinkConfig} {engine : Option E}
    (h : make config engine = .ok s) : s.config = config := by
  simp only [make] at h
  repeat' split at h
  all_goals cases h
  all_goals rfl

/-- A bind changes nothing but the engine, and that not while the sink streams. -/
theorem bind_cases (s : TransmitSink E) (engine : E) :
    (s.bind engine).2 = s ∨
      s.phase ≠ .streaming ∧ (s.bind engine).2 = { s with engine := some engine } := by
  simp only [bind]
  split
  · exact .inl rfl
  · exact .inl rfl
  · next hphase => exact .inr ⟨by simp [hphase], rfl⟩
  · next hphase => exact .inr ⟨by simp [hphase], rfl⟩

theorem bind_phase (s : TransmitSink E) (engine : E) : (s.bind engine).2.phase = s.phase := by
  rcases s.bind_cases engine with he | ⟨_, he⟩ <;> rw [he]

theorem bind_feed (s : TransmitSink E) (engine : E) : (s.bind engine).2.feed = s.feed := by
  rcases s.bind_cases engine with he | ⟨_, he⟩ <;> rw [he]

theorem bind_config (s : TransmitSink E) (engine : E) : (s.bind engine).2.config = s.config := by
  rcases s.bind_cases engine with he | ⟨_, he⟩ <;> rw [he]

variable [TransferEngine E]

/-- What a start of `s` leaves. It does not get as far as the engine, or the engine rejects it or
begins to stream; either way the ring and the mark of the stream are as for a new session. -/
inductive StartEnd (s : TransmitSink E) : TransmitSink E → Prop where
  | refused : (∀ engine, s.engine = some engine → s.phase ≠ .streaming ∧
      TransferEngine.transferSize engine ≠ s.config.slotSize) → StartEnd s s
  | already : s.phase = .streaming → StartEnd s (s.report .alreadyStreaming)
  | rejected {engine after : E} {problem : String} : s.phase ≠ .streaming →
      s.engine = some engine → TransferEngine.transferSize engine = s.config.slotSize →
      TransferEngine.start engine = (.error problem, after) →
      StartEnd s (({ s with engine := some after, feed := s.feedAtStart, fillOffset := 0 } :
        TransmitSink E).report (.startFailed problem))
  | begun {engine after : E} : s.phase ≠ .streaming → s.engine = some engine →
      TransferEngine.transferSize engine = s.config.slotSize →
      TransferEngine.start engine = (.ok (), after) → StartEnd s (s.startedWith after)

theorem start_ends (s : TransmitSink E) : s.StartEnd s.start.2 := by
  rcases s.start_cases with ⟨_, _, hstart, hfailed⟩ | ⟨hstreams, hstart⟩ |
    ⟨hphase, _, _, hengine, hsize, haccepted, hstart⟩
  · rw [hstart]
    cases hfailed with
    | unbound hnone =>
        refine .refused fun engine he => ?_
        cases hnone.symm.trans he
    | mismatched hphase hengine hsize =>
        refine .refused fun other he => ?_
        cases hengine.symm.trans he
        exact ⟨hphase, hsize⟩
    | rejected hphase hengine hsize hrejected =>
        exact .rejected hphase hengine hsize hrejected
  · rw [hstart]
    exact .already hstreams
  · rw [hstart]
    exact .begun hphase hengine hsize haccepted

/-- A start keeps the phase, or the sink streams from then on. -/
theorem StartEnd.phase_cases (h : s.StartEnd t) :
    t.phase = s.phase ∨ s.phase ≠ .streaming ∧ t.phase = .streaming := by
  cases h with
  | refused _ => exact .inl rfl
  | already _ => exact .inl rfl
  | rejected _ _ _ _ => exact .inl rfl
  | begun hstreams _ _ _ => exact .inr ⟨hstreams, rfl⟩

end TransmitSink

namespace SinkStep

variable [TransferEngine E] {step : SinkStep E}

/-- Any step but a start, or a stop of a sink that streams, keeps the phase. -/
theorem phase_eq (hs : step.before.Sound) (hstart : step.operation ≠ .start)
    (hstop : ¬ step.StopsStream) : step.after.phase = step.before.phase := by
  apply step.operation.perform_keeps changes_anyhow (steady_phase _ step.before.phase) hs rfl
    step.operation.within_anyhow
  · exact fun engine _ => step.before.bind_phase engine
  · exact fun he => absurd he hstart
  · exact fun pauses gaps now he hphase => absurd ⟨hphase, pauses, gaps, now, he⟩ hstop

theorem after_of_start (hstart : step.operation = .start) : step.after = step.before.start.2 := by
  simp only [after, hstart, Operation.perform]

theorem phase_of_stopsStream (hs : step.before.Invariant) (hstop : step.StopsStream)
    (hreturns : step.reply.returns = true) : step.after.phase = .stopped := by
  obtain ⟨hphase, pauses, gaps, now, he⟩ := hstop
  have hends := Call.stop_ends (p := ⟨step.before, pauses, gaps⟩) now hs.toSound hphase
    (hs.bound_of_streaming hphase)
  simp only [reply, after, he, Operation.perform, Operation.ofCall] at hreturns ⊢
  cases hrun : Call.attempt (Call.stopAt now) ⟨step.before, pauses, gaps⟩ with
  | ok result q =>
      obtain ⟨_, _, _, hstopped⟩ := hends.ok hrun
      exact hstopped.ended.phase_eq
  | error halt q =>
      rw [hrun] at hreturns
      cases hreturns

theorem transition (hs : step.before.Invariant) (hreturns : step.reply.returns = true) :
    Transition step.operation step.before.phase step.after.phase := by
  by_cases hstop : step.StopsStream
  · obtain ⟨hphase, pauses, gaps, now, he⟩ := hstop
    rw [phase_of_stopsStream hs ⟨hphase, pauses, gaps, now, he⟩ hreturns, hphase, he]
    exact .stop pauses gaps now
  · by_cases hstart : step.operation = .start
    · rw [after_of_start hstart, hstart]
      rcases step.before.start_ends.phase_cases with hsame | ⟨hnot, hstreams⟩
      · rw [hsame]
        exact .keep _ _
      · rw [hstreams]
        cases hphase : step.before.phase with
        | idle => exact .first
        | stopped => exact .again
        | streaming => exact absurd hphase hnot
        | stopping => exact absurd hphase hs.settled
    · rw [phase_eq hs.toSound hstart hstop]
      exact .keep _ _

/-- A property of the feed is kept by a step if a start keeps it, and a stop of a sink that streams
does when it marks the stream. -/
theorem keeps_feed {P : Feed → Prop} (h : Steady (fun _ _ : E => True) fun s => P s.feed)
    (hs : step.before.Sound) (hp : P step.before.feed)
    (hstart : step.operation = .start → P step.before.feedAtStart)
    (hstop : step.StopsStream → ∀ f : Feed, P f → P { f with stopping := true }) :
    P step.after.feed := by
  apply step.operation.perform_keeps changes_anyhow h hs hp step.operation.within_anyhow
  · intro engine _
    rw [step.before.bind_feed engine]
    exact hp
  · intro he
    have hends := step.before.start_ends
    have hbegin : P ({ step.before with feed := step.before.feedAtStart } : TransmitSink E).feed :=
      hstart he
    generalize step.before.start.2 = t at hends ⊢
    cases hends with
    | refused _ => exact hp
    | already _ => exact h.report _ hp
    | rejected _ _ _ _ => exact h.report _ hbegin
    | begun _ _ _ _ => exact h.report _ hbegin
  · intro pauses gaps now he hphase
    exact Call.stop_keeps changes_anyhow h (p := ⟨step.before, pauses, gaps⟩) (fun _ hq => hq) now
      (fun hq => hstop ⟨hphase, pauses, gaps, now, he⟩ _ hq) hs hp

theorem config_eq (hs : step.before.Sound) : step.after.config = step.before.config := by
  have hsteady := steady_config (fun _ _ : E => True) step.before.config
  apply step.operation.perform_keeps changes_anyhow hsteady hs rfl step.operation.within_anyhow
  · exact fun engine _ => step.before.bind_config engine
  · intro _
    have hends := step.before.start_ends
    generalize step.before.start.2 = t at hends ⊢
    cases hends <;> rfl
  · intro pauses gaps now _ _
    exact Call.stop_keeps changes_anyhow hsteady (p := ⟨step.before, pauses, gaps⟩)
      (fun _ hp => hp) now (fun hp => hp) hs rfl

end SinkStep

end IqTransmit
