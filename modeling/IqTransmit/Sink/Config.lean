import IqTransmit.Duration

/-! The settings of a transmit sink and the errors of its calls. -/

namespace IqTransmit

/-- What is wrong with a configuration or with a request that does not fit it. -/
inductive ConfigProblem where
  | noBuffers
  | slotSize (size : Nat)
  | transferSize (slot transfer : Nat)
  | rebind
  | described (text : String)
  deriving DecidableEq, Repr

def ConfigProblem.message : ConfigProblem → String
  | noBuffers => "buffer count must be at least 1"
  | slotSize size => s!"slot size {size} must be a non-zero multiple of 2"
  | transferSize slot transfer =>
      s!"slot size {slot} does not match engine transfer size {transfer}"
  | rebind => "cannot rebind a streaming sink"
  | described text => text

/-- Why a call on a sink fails. -/
inductive SinkError where
  | config (problem : ConfigProblem)
  | noDevice
  | hardwareStart (problem : String)
  | hardwareStop (problem : String)
  | engineStopped
  | stopTimeout (limit : Duration)
  deriving DecidableEq, Repr

namespace SinkError

def message : SinkError → String
  | config problem =>
      let text := problem.message
      s!"Configuration error: {text}"
  | noDevice => "No device bound to the transmit sink"
  | hardwareStart problem => s!"Failed to start TX streaming: {problem}"
  | hardwareStop problem => s!"Failed to stop TX streaming: {problem}"
  | engineStopped => "TX engine stopped streaming"
  | stopTimeout limit =>
      let whole := limit.milliseconds
      s!"TX stop timed out after {whole}ms"

end SinkError

/-- The capacity of the ring in slots, the bytes of a slot, and the time a stop may take. -/
structure SinkConfig where
  bufferCount : Nat := 15
  slotSize : Nat := 262144
  stopTimeout : Option Duration := none
  deriving DecidableEq, Repr

namespace SinkConfig

/-- The slots of silence that follow the last samples. -/
def trailingSilence : Nat := 5

/-- Refuses an empty ring and slots that do not hold whole samples. -/
def validate (config : SinkConfig) : Except SinkError Unit :=
  if config.bufferCount = 0 then .error (.config .noBuffers)
  else if config.slotSize = 0 ∨ config.slotSize % 2 ≠ 0 then
    .error (.config (.slotSize config.slotSize))
  else .ok ()

/-- The reading of the clock at which a stop that begins `now` is late, if there is a limit. -/
def deadline (config : SinkConfig) (now : Instant) : Except Fault (Option Instant) :=
  match config.stopTimeout with
  | none => .ok none
  | some limit => (now.after limit).map some

/-- There is no deadline just if the limit goes beyond the range of the clock. -/
theorem deadline_eq_error_iff {config : SinkConfig} {now : Instant} {fault : Fault} :
    config.deadline now = .error fault ↔ fault = .timeRange ∧ ∃ limit,
      config.stopTimeout = some limit ∧
        Instant.maxSeconds < (now.nanoseconds + limit.nanoseconds) / 1000000000 := by
  cases hlimit : config.stopTimeout with
  | none => simp [deadline, hlimit]
  | some limit =>
      cases he : now.after limit with
      | ok reading =>
          have hrange := (Instant.after_eq_ok_iff.mp he).1
          simp [deadline, hlimit, he, Except.map, Nat.not_lt_of_le hrange]
      | error other =>
          obtain ⟨hrange, rfl⟩ := Instant.after_eq_error_iff.mp he
          simp [deadline, hlimit, he, Except.map, hrange, eq_comm]

theorem deadline_of_limit {config : SinkConfig} {now : Instant} {limit : Duration}
    {deadline : Option Instant} (hlimit : config.stopTimeout = some limit)
    (h : config.deadline now = .ok deadline) :
    ∃ reading, now.after limit = .ok reading ∧ deadline = some reading := by
  simp only [SinkConfig.deadline, hlimit] at h
  cases he : now.after limit with
  | error fault =>
      rw [he] at h
      cases h
  | ok reading =>
      rw [he] at h
      cases h
      exact ⟨reading, rfl, rfl⟩

theorem deadline_cases (config : SinkConfig) (now : Instant) :
    (∃ deadline, config.deadline now = .ok deadline) ∨
      config.deadline now = .error .timeRange := by
  cases he : config.deadline now with
  | ok deadline => exact .inl ⟨deadline, rfl⟩
  | error fault =>
      obtain ⟨rfl, _⟩ := deadline_eq_error_iff.mp he
      exact .inr rfl

/-- Whether ring and slots have their usual sizes. -/
def hasUsualSizes (config : SinkConfig) : Bool :=
  config.bufferCount == 15 && config.slotSize == 262144

end SinkConfig

end IqTransmit
