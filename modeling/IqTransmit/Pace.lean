import IqTransmit.Sink.Call

/-!
One way for the threads to take turns: the engine makes one transfer during every pause, and a
transfer takes the same time each. Other schedules give the same samples in the same order.
-/

namespace IqTransmit

/-- The moves that make up one transfer of a file engine: a look, a pull and a write. -/
def oneTransfer : List Move := [.engine, .engine, .engine]

/-- `count` pauses of one transfer each. -/
def steadyPauses (interval : Duration) (count : Nat) : List Pause :=
  (List.range count).map fun i =>
    { elapsed := ⟨i * interval.nanoseconds⟩, moves := oneTransfer }

/-- As many pauses as a call needs that queues `slots` slots and waits for all to be drained. -/
def enoughPauses (interval : Duration) (slots : Nat) : List Pause :=
  steadyPauses interval (slots + 16)

end IqTransmit
