import IqTransmit.Notice
import IqTransmit.Sink.Engine

/-!
What the two sides of a sink share: the ring, the stopping flag, the counters and the journal.
The fill side pushes whole slots; a drain takes the oldest one, or answers with silence.
-/

namespace IqTransmit

/-- Slots queued, slots handed out, transfers answered with silence before a stop, and full
slots that found no room. -/
structure Stats where
  pushed : Nat := 0
  drained : Nat := 0
  underruns : Nat := 0
  deferred : Nat := 0
  deriving DecidableEq, Repr

/-- Who called a drain closure. -/
inductive Drainer where
  | engine
  | other
  deriving DecidableEq, Repr

/-- An entry of the journal: a line of the log, a slot that was queued, or what a drain answered,
which is the oldest queued slot or silence of some size. -/
inductive Event where
  | reported (notice : Notice)
  | queued (slot : Slot)
  | sent (drainer : Drainer) (slot : Slot)
  | silent (drainer : Drainer) (status : Status) (size : Nat)
  deriving DecidableEq, Repr

namespace Event

def notice? : Event → Option Notice
  | reported notice => some notice
  | queued _ | sent .. | silent .. => none

/-- What a drain answered, and to whom. -/
def delivery? : Event → Option (Drainer × Delivery)
  | reported _ | queued _ => none
  | sent drainer slot => some (drainer, ⟨.proceed, slot⟩)
  | silent drainer status size => some (drainer, ⟨status, List.replicate size 0⟩)

/-- The slot that the fill side queued. -/
def queuedSlot? : Event → Option Slot
  | queued slot => some slot
  | reported _ | sent .. | silent .. => none

/-- The queued slot that a drain took. -/
def sentSlot? : Event → Option Slot
  | sent _ slot => some slot
  | reported _ | queued _ | silent .. => none

end Event

/-- The shared state; the journal has its newest entry first. -/
structure Feed where
  ring : SlotRing
  stopping : Bool := false
  stats : Stats := {}
  journal : List Event := []

namespace Feed

def note (feed : Feed) (event : Event) : Feed :=
  { feed with journal := event :: feed.journal }

def report (feed : Feed) (notice : Notice) : Feed := feed.note (.reported notice)

/-- The slots that the fill side queued, in order. -/
def queuedSlots (feed : Feed) : List Slot := feed.journal.reverse.filterMap Event.queuedSlot?

/-- The slots that drains took, in order. -/
def sentSlots (feed : Feed) : List Slot := feed.journal.reverse.filterMap Event.sentSlot?

/-- Queues a slot if there is room. -/
def push (slot : Slot) : EStateM Fault Feed Bool := fun feed =>
  match SlotRing.tryPush slot feed.ring with
  | .error fault ring => .error fault { feed with ring }
  | .ok false ring => .ok false { feed with ring }
  | .ok true ring =>
      .ok true ({ feed with ring, stats.pushed := feed.stats.pushed + 1 }.note (.queued slot))

/-- The oldest slot, if the buffer has its size and one is queued. -/
def pop (dest : List Int8) : EStateM Fault Feed (Option Slot) := fun feed =>
  if dest.length = feed.ring.slotSize then
    match SlotRing.tryPop dest feed.ring with
    | .error fault ring => .error fault { feed with ring }
    | .ok (false, _) ring => .ok none { feed with ring }
    | .ok (true, slot) ring =>
        .ok (some slot) { feed with ring, stats.drained := feed.stats.drained + 1 }
  else .ok none feed

/-- Counts and reports a transfer that is answered with silence before a stop. -/
def underrun (feed : Feed) (size : Nat) : Feed :=
  let notice :=
    if size = feed.ring.slotSize then .underrun else .transferMismatch size feed.ring.slotSize
  { feed with stats.underruns := feed.stats.underruns + 1 }.report notice

/-- Answers a buffer with silence: the end of the stream once it is stopping, an underrun
before. -/
def silence (drainer : Drainer) (size : Nat) : EStateM Fault Feed Delivery := fun feed =>
  let bytes := List.replicate size 0
  if feed.stopping then .ok ⟨.terminate, bytes⟩ (feed.note (.silent drainer .terminate size))
  else .ok ⟨.proceed, bytes⟩ ((feed.underrun size).note (.silent drainer .proceed size))

/-- One call of a drain closure with a buffer. -/
def drain (drainer : Drainer) (dest : List Int8) : EStateM Fault Feed Delivery := fun feed =>
  match pop dest feed with
  | .error fault feed => .error fault feed
  | .ok (some slot) feed => .ok ⟨.proceed, slot⟩ (feed.note (.sent drainer slot))
  | .ok none feed => silence drainer dest.length feed

/-- The feed as the drain closure of an engine. -/
def pull (dest : List Int8) : EStateM Fault Feed Pulled := fun feed =>
  match drain .engine dest feed with
  | .error fault feed => .error fault feed
  | .ok delivery feed => .ok (.delivered delivery) feed

end Feed

end IqTransmit
