import IqTransmit.Sink.Basic

/-!
What a start can do. It fails in one of three ways; if it succeeds, the sink has streamed before, or
does from then on. All other statements about starts come from these two cases.
-/

namespace IqTransmit

namespace TransmitSink

variable {E : Type} {s t : TransmitSink E} {engine after : E} {error : SinkError}

/-! ## The ring at a start -/

theorem feedAtStart_ring_of_idle (hidle : s.phase = .idle) : s.feedAtStart.ring = s.feed.ring := by
  rw [feedAtStart, if_pos hidle]

theorem feedAtStart_ring_of_not_idle (hidle : s.phase ≠ .idle) :
    s.feedAtStart.ring = s.feed.ring.clear := by
  rw [feedAtStart, if_neg hidle]

theorem feedAtStart_ring (s : TransmitSink E) :
    s.feedAtStart.ring = s.feed.ring ∨ s.feedAtStart.ring = s.feed.ring.clear := by
  by_cases hidle : s.phase = .idle
  · exact .inl (feedAtStart_ring_of_idle hidle)
  · exact .inr (feedAtStart_ring_of_not_idle hidle)

/-! ## The sinks that a start leaves -/

/-- A sink as a start leaves it whose engine has come to be `after`. -/
def startedWith (s : TransmitSink E) (after : E) : TransmitSink E :=
  ({ s with engine := some after, feed := s.feedAtStart, fillOffset := 0, phase := .streaming } :
    TransmitSink E).report
      (.streamingStarted s.config.bufferCount s.config.slotSize s.converter.strategy.name)

variable [TransferEngine E]

/-- How a start fails, and the sink that it leaves. -/
inductive FailedStart (s : TransmitSink E) : SinkError → TransmitSink E → Prop where
  | unbound : s.engine = none → FailedStart s .noDevice s
  | mismatched {engine : E} : s.phase ≠ .streaming → s.engine = some engine →
      TransferEngine.transferSize engine ≠ s.config.slotSize →
      FailedStart s
        (.config (.transferSize s.config.slotSize (TransferEngine.transferSize engine))) s
  | rejected {engine after : E} {problem : String} : s.phase ≠ .streaming →
      s.engine = some engine → TransferEngine.transferSize engine = s.config.slotSize →
      TransferEngine.start engine = (.error problem, after) →
      FailedStart s (.hardwareStart problem)
        (({ s with engine := some after, feed := s.feedAtStart, fillOffset := 0 } :
          TransmitSink E).report (.startFailed problem))

theorem start_of_streaming (hengine : s.engine = some engine) (hphase : s.phase = .streaming) :
    s.start = (.ok (), s.report .alreadyStreaming) := by
  simp only [start, hengine, if_pos hphase]

theorem start_of_mismatched (hphase : s.phase ≠ .streaming) (hengine : s.engine = some engine)
    (hsize : TransferEngine.transferSize engine ≠ s.config.slotSize) :
    s.start =
      (.error (.config (.transferSize s.config.slotSize (TransferEngine.transferSize engine))), s) := by
  simp only [start, hengine, if_neg hphase, if_pos hsize]

theorem start_of_rejected {problem : String} (hphase : s.phase ≠ .streaming)
    (hengine : s.engine = some engine)
    (hsize : TransferEngine.transferSize engine = s.config.slotSize)
    (hrejected : TransferEngine.start engine = (.error problem, after)) :
    s.start = (.error (.hardwareStart problem),
      ({ s with engine := some after, feed := s.feedAtStart, fillOffset := 0 } :
        TransmitSink E).report (.startFailed problem)) := by
  simp only [start, hengine, hrejected]
  rw [if_neg hphase, if_neg (not_not_intro hsize)]

theorem start_of_accepted (hphase : s.phase ≠ .streaming) (hengine : s.engine = some engine)
    (hsize : TransferEngine.transferSize engine = s.config.slotSize)
    (haccepted : TransferEngine.start engine = (.ok (), after)) :
    s.start = (.ok (), s.startedWith after) := by
  simp only [start, hengine, haccepted]
  rw [if_neg hphase, if_neg (not_not_intro hsize)]
  rfl

theorem start_cases (s : TransmitSink E) :
    (∃ error t, s.start = (.error error, t) ∧ s.FailedStart error t) ∨
      s.phase = .streaming ∧ s.start = (.ok (), s.report .alreadyStreaming) ∨
      s.phase ≠ .streaming ∧ ∃ engine after, s.engine = some engine ∧
        TransferEngine.transferSize engine = s.config.slotSize ∧
        TransferEngine.start engine = (.ok (), after) ∧ s.start = (.ok (), s.startedWith after) := by
  cases hengine : s.engine with
  | none =>
      left
      exact ⟨.noDevice, s, by simp only [start, hengine], .unbound hengine⟩
  | some engine =>
      by_cases hphase : s.phase = .streaming
      · exact .inr (.inl ⟨hphase, start_of_streaming hengine hphase⟩)
      by_cases hsize : TransferEngine.transferSize engine = s.config.slotSize
      · cases hstart : TransferEngine.start engine with
        | mk result after =>
            cases result with
            | error problem =>
                left
                exact ⟨_, _, start_of_rejected hphase hengine hsize hstart,
                  .rejected hphase hengine hsize hstart⟩
            | ok _ =>
                right; right
                exact ⟨hphase, engine, after, rfl, hsize, hstart,
                  start_of_accepted hphase hengine hsize hstart⟩
      · left
        exact ⟨_, s, start_of_mismatched hphase hengine hsize, .mismatched hphase hengine hsize⟩

theorem failedStart_of_error (h : s.start = (.error error, t)) : s.FailedStart error t := by
  rcases s.start_cases with ⟨_, _, hstart, hfailed⟩ | ⟨_, hstart⟩ | ⟨_, _, _, _, _, _, hstart⟩
  · cases hstart.symm.trans h
    exact hfailed
  · cases hstart.symm.trans h
  · cases hstart.symm.trans h

theorem start_eq_ok (hphase : s.phase ≠ .streaming) (h : s.start = (.ok (), t)) :
    ∃ engine after, s.engine = some engine ∧
      TransferEngine.transferSize engine = s.config.slotSize ∧
      TransferEngine.start engine = (.ok (), after) ∧ t = s.startedWith after := by
  rcases s.start_cases with ⟨_, _, hstart, _⟩ | ⟨hstreams, _⟩ |
    ⟨_, engine, after, hengine, hsize, haccepted, hstart⟩
  · cases hstart.symm.trans h
  · exact absurd hstreams hphase
  · cases hstart.symm.trans h
    exact ⟨engine, after, hengine, hsize, haccepted, rfl⟩

theorem FailedStart.phase_eq (h : s.FailedStart error t) : t.phase = s.phase := by
  cases h with
  | unbound _ => rfl
  | mismatched _ _ _ => rfl
  | rejected _ _ _ _ => rfl

theorem FailedStart.ring_eq (h : s.FailedStart error t) (hidle : s.phase = .idle) :
    t.feed.ring = s.feed.ring := by
  cases h with
  | unbound _ => rfl
  | mismatched _ _ _ => rfl
  | rejected _ _ _ _ => exact feedAtStart_ring_of_idle hidle

end TransmitSink

end IqTransmit
