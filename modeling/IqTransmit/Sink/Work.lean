import IqTransmit.Sink.Call

/-! Filling: converting samples into the scratch slot and queueing it once it is full. -/

namespace IqTransmit

/-- The bytes of `slot` with those from `start` on replaced. -/
def splice (slot : Slot) (start : Nat) (bytes : List Int8) : Slot :=
  slot.take start ++ bytes ++ slot.drop (start + bytes.length)

namespace Call

variable {E : Type} [TransferEngine E]

/-- Gives up if the engine of a sink that streams has stopped. -/
def lookToWork : Call E Unit := do
  let before ← sink
  if before.phase = .streaming then
    unless ← askEngine do
      report (.engineStopped before.queued)
      fail .engineStopped

/-- Waits until the ring has room. A sink that does not stream just waits for a drain. -/
def awaitRoom : Call E Unit := waitUntil hasRoom lookToWork none

/-- Converts a batch into the scratch slot behind what it holds. -/
def convertBatch (batch : List Sample) : Call E Unit := do
  let sink ← sink
  let stop := sink.fillOffset + batch.length * 2
  let held ← checked (takeExactly stop sink.scratch)
  let target ← checked (dropExactly sink.fillOffset held)
  let bytes ← checked (sink.converter.convert batch target.length)
  update fun sink => { sink with
    scratch := splice sink.scratch sink.fillOffset bytes
    fillOffset := stop }

/-- Takes back the `size` bytes that completed the scratch slot but found no room. -/
def deferPush (size : Nat) : Call E Unit := do
  update fun sink => { sink with
    fillOffset := sink.fillOffset - size
    feed.stats.deferred := sink.feed.stats.deferred + 1 }
  report .pushDeferred

/-- Converts at most what completes the scratch slot, queues the slot if it is complete, and
answers how many samples were taken. None are taken if the slot finds no room after all. Others
may move before the check for room and before the push. -/
def work (input : List Sample) : Call E Nat := do
  gap
  awaitRoom
  let before ← sink
  let free ← checked (subtractExactly before.scratch.length before.fillOffset)
  let count := (input.take (free / 2)).length
  let batch ← checked (takeExactly count input)
  convertBatch batch
  if count = free / 2 then
    gap
    if ← pushScratch then
      update fun sink => { sink with fillOffset := 0 }
      return count
    else
      deferPush (count * 2)
      return 0
  else return count

/-- Offers an input until it is used up, at most `count` times. -/
def workWithin : Nat → List Sample → Call E Unit
  | _, [], p => .ok () p
  | 0, _ :: _, p => .error .waiting p
  | count + 1, input, p =>
      match work input p with
      | .error halt p => .error halt p
      | .ok consumed p =>
          match dropExactly consumed input with
          | .error fault => .error (.fault fault) p
          | .ok rest => workWithin count rest p

/-- Takes in all of an input. -/
def workAll (input : List Sample) : Call E Unit := workWithin input.length input

end Call

end IqTransmit
