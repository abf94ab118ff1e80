import IqTransmit.Fault

/-!
A first-in first-out queue of slots, all of one size, in one flat store of fixed capacity.
Positions in the store are computed in 64-bit words. A full ring refuses a slot and an empty one
gives none; only after that is the length of what was offered compared with the slot size. The
operations carry the ring as state, which a fault keeps too.
-/

namespace IqTransmit

/-- The bytes of one transfer. -/
abbrev Slot := List Int8

/-- A size or position as a 64-bit word holds it. -/
def word (n : Nat) : Nat := n % 0x10000000000000000

/-- The largest number of bytes that one store may have. -/
def maxStore : Nat := 0x7fffffffffffffff

/-- Writes bytes into a store from a position on. -/
def overwrite (store : Array Int8) (start : Nat) : List Int8 → Array Int8
  | [] => store
  | b :: rest => overwrite (store.setIfInBounds start b) (start + 1) rest

/-- A ring of slots with the cursors of its next write (`head`) and its next read (`tail`). -/
structure SlotRing where
  store : Array Int8
  slotSize : Nat
  capacity : Nat
  head : Nat
  tail : Nat
  len : Nat

namespace SlotRing

/-- An empty ring for `capacity` slots in a store of `size` bytes, which one store must be able to
hold. -/
def makeOfSize (capacity slotSize size : Nat) : Except Fault SlotRing := do
  unless 0 < capacity do throw .zeroCapacity
  unless 0 < slotSize do throw .zeroSlotSize
  unless size ≤ maxStore do throw .storageSize
  return { store := Array.replicate size 0, slotSize, capacity, head := 0, tail := 0, len := 0 }

/-- An empty ring for `capacity` slots, in a store that has the bytes of all of them. -/
def make (capacity slotSize : Nat) : Except Fault SlotRing :=
  makeOfSize capacity slotSize (capacity * slotSize)

/-- As `make`, in a build that goes on with the word of a product that is too great for one. -/
def makeUnchecked (capacity slotSize : Nat) : Except Fault SlotRing :=
  makeOfSize capacity slotSize (word (capacity * slotSize))

def hasRoom (r : SlotRing) : Bool := decide (r.len < r.capacity)

def isEmpty (r : SlotRing) : Bool := r.len == 0

/-- Where the slot of a cursor begins and ends in the store, if the store holds it. -/
def bounds (r : SlotRing) (cursor : Nat) : Except Fault (Nat × Nat) :=
  let start := word (cursor * r.slotSize)
  let stop := word (start + r.slotSize)
  if start ≤ stop ∧ stop ≤ r.store.size then .ok (start, stop) else .error .outOfRange

/-- Queues a slot; a full ring answers `false`. -/
def tryPush (slot : Slot) : EStateM Fault SlotRing Bool := fun r =>
  if r.hasRoom then
    match r.bounds r.head with
    | .error fault => .error fault r
    | .ok (start, stop) =>
        if slot.length = stop - start then
          .ok true { r with
            store := overwrite r.store start slot
            head := (r.head + 1) % r.capacity
            len := r.len + 1 }
        else .error .lengthMismatch r
  else .ok false r

/-- Moves the oldest slot into a destination and answers what that then holds; an empty ring
answers `false` and leaves the destination. -/
def tryPop (dest : List Int8) : EStateM Fault SlotRing (Bool × List Int8) := fun r =>
  if r.isEmpty then .ok (false, dest) r
  else
    match r.bounds r.tail with
    | .error fault => .error fault r
    | .ok (start, stop) =>
        if dest.length = stop - start then
          .ok (true, (r.store.extract start stop).toList)
            { r with tail := (r.tail + 1) % r.capacity, len := r.len - 1 }
        else .error .lengthMismatch r

/-- Drops every queued slot. -/
def clear (r : SlotRing) : SlotRing := { r with head := 0, tail := 0, len := 0 }

/-- The slot that begins at a position of the store counted in slots. -/
def slotAt (r : SlotRing) (position : Nat) : Slot :=
  (r.store.extract (position * r.slotSize) (position * r.slotSize + r.slotSize)).toList

/-- The queued slots, oldest first. -/
def contents (r : SlotRing) : List Slot :=
  (List.range r.len).map fun i => r.slotAt ((r.tail + i) % r.capacity)

/-- The relation of cursors, length and store that every operation keeps. -/
structure WellFormed (r : SlotRing) : Prop where
  capacity_pos : 0 < r.capacity
  slotSize_pos : 0 < r.slotSize
  store_size : r.store.size = r.capacity * r.slotSize
  head_lt : r.head < r.capacity
  tail_lt : r.tail < r.capacity
  len_le : r.len ≤ r.capacity
  head_eq : r.head = (r.tail + r.len) % r.capacity

end SlotRing

end IqTransmit
