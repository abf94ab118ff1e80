import IqTransmit.Proofs.Ring.Contents

/-!
A ring answers as a bounded queue does. A call on either is data, and so is all that a caller sees
of it: the answer or the fault, the destination afterwards, and the fill level. One call on a
sound ring is one step of the queue of its contents; so is, by induction, every run of calls.
-/

namespace IqTransmit

namespace SlotRing

/-- A call on a ring. -/
inductive Request where
  | push (slot : Slot)
  | pop (dest : List Int8)
  | clear
  deriving DecidableEq, Repr

/-- The answer of a call, or its fault, with what the destination of a pop then holds. -/
abbrev Answer := Except Fault Bool × List Int8

/-- All that a caller sees of one call. -/
structure Reply where
  answer : Answer
  len : Nat
  isEmpty : Bool
  hasRoom : Bool

/-- One call. A fault gives no destination back, so that is as it was. -/
def perform (r : SlotRing) : Request → Answer × SlotRing
  | .push slot =>
      match tryPush slot r with
      | .ok pushed r => ((.ok pushed, []), r)
      | .error fault r => ((.error fault, []), r)
  | .pop dest =>
      match tryPop dest r with
      | .ok (popped, dest) r => ((.ok popped, dest), r)
      | .error fault r => ((.error fault, dest), r)
  | .clear => ((.ok true, []), r.clear)

/-- The replies of a run of calls, and the ring after it. -/
def run (r : SlotRing) : List Request → List Reply × SlotRing
  | [] => ([], r)
  | request :: rest =>
      let (answer, r) := r.perform request
      let (replies, last) := r.run rest
      (⟨answer, r.len, r.isEmpty, r.hasRoom⟩ :: replies, last)

end SlotRing

/-! ## The abstract queue -/

namespace BoundedQueue

open SlotRing (Request Answer Reply)

/-- One call on a queue of at most `capacity` slots of `slotSize` bytes. The fill level is looked
at first, the length of what is offered after it. -/
def perform (capacity slotSize : Nat) (queue : List Slot) : Request → Answer × List Slot
  | .push slot =>
      if queue.length < capacity then
        if slot.length = slotSize then ((.ok true, []), queue ++ [slot])
        else ((.error .lengthMismatch, []), queue)
      else ((.ok false, []), queue)
  | .pop dest =>
      match queue with
      | [] => ((.ok false, dest), [])
      | oldest :: rest =>
          if dest.length = slotSize then ((.ok true, oldest), rest)
          else ((.error .lengthMismatch, dest), oldest :: rest)
  | .clear => ((.ok true, []), [])

def run (capacity slotSize : Nat) (queue : List Slot) : List Request → List Reply × List Slot
  | [] => ([], queue)
  | request :: rest =>
      let (answer, queue) := perform capacity slotSize queue request
      let (replies, last) := run capacity slotSize queue rest
      (⟨answer, queue.length, queue.isEmpty, decide (queue.length < capacity)⟩ :: replies, last)

end BoundedQueue

namespace SlotRing

variable {r : SlotRing}

/-! ## One call -/

/-- A ring that stands for a queue: sound, of the given sizes, with the queue as its contents. -/
structure StandsFor (r : SlotRing) (capacity slotSize : Nat) (queue : List Slot) : Prop where
  sound : r.Sound
  capacity_eq : r.capacity = capacity
  slotSize_eq : r.slotSize = slotSize
  contents_eq : r.contents = queue

theorem isEmpty_eq_contents_isEmpty (r : SlotRing) : r.isEmpty = r.contents.isEmpty := by
  rw [Bool.eq_iff_iff, List.isEmpty_iff, contents_eq_nil_iff]

theorem standsFor_of_make {capacity slotSize : Nat} (h : make capacity slotSize = .ok r) :
    r.StandsFor capacity slotSize [] := by
  have hsound := sound_of_make h
  obtain ⟨_, _, _, rfl⟩ := make_eq_ok_iff.mp h
  exact ⟨hsound, rfl, rfl, rfl⟩

theorem StandsFor.push {capacity slotSize : Nat} {queue : List Slot}
    (h : r.StandsFor capacity slotSize queue) (slot : Slot) :
    (r.perform (.push slot)).1 = (BoundedQueue.perform capacity slotSize queue (.push slot)).1 ∧
      (r.perform (.push slot)).2.StandsFor capacity slotSize
        (BoundedQueue.perform capacity slotSize queue (.push slot)).2 := by
  obtain ⟨hsound, rfl, rfl, rfl⟩ := h
  simp only [perform, BoundedQueue.perform, contents_length]
  by_cases hroom : r.len < r.capacity
  · have hr : r.hasRoom = true := decide_eq_true hroom
    rw [if_pos hroom]
    by_cases hslot : slot.length = r.slotSize
    · rw [if_pos hslot, tryPush_of_room hsound hr hslot]
      exact ⟨rfl, hsound.enqueue hr, rfl, rfl, contents_enqueue hsound hr hslot⟩
    · rw [if_neg hslot, tryPush_of_length_ne hsound hr hslot]
      exact ⟨rfl, hsound, rfl, rfl, rfl⟩
  · rw [if_neg hroom, tryPush_of_full (decide_eq_false hroom)]
    exact ⟨rfl, hsound, rfl, rfl, rfl⟩

theorem StandsFor.pop {capacity slotSize : Nat} {queue : List Slot}
    (h : r.StandsFor capacity slotSize queue) (dest : List Int8) :
    (r.perform (.pop dest)).1 = (BoundedQueue.perform capacity slotSize queue (.pop dest)).1 ∧
      (r.perform (.pop dest)).2.StandsFor capacity slotSize
        (BoundedQueue.perform capacity slotSize queue (.pop dest)).2 := by
  obtain ⟨hsound, rfl, rfl, rfl⟩ := h
  simp only [perform, BoundedQueue.perform]
  cases hempty : r.isEmpty with
  | true =>
      have hnil : r.contents = [] := (contents_eq_nil_iff r).mpr hempty
      rw [tryPop_of_empty dest hempty, hnil]
      exact ⟨rfl, hsound, rfl, rfl, hnil⟩
  | false =>
      have hcons := contents_dequeue hsound hempty
      rw [hcons]
      by_cases hdest : dest.length = r.slotSize
      · simp only [if_pos hdest]
        rw [tryPop_of_queued hsound hempty hdest]
        exact ⟨rfl, hsound.dequeue hempty, rfl, rfl, rfl⟩
      · simp only [if_neg hdest]
        rw [tryPop_of_length_ne hsound hempty hdest]
        exact ⟨rfl, hsound, rfl, rfl, hcons⟩

/-- One call on a ring is one step of the queue that it stands for. -/
theorem StandsFor.perform {capacity slotSize : Nat} {queue : List Slot}
    (h : r.StandsFor capacity slotSize queue) (request : Request) :
    (r.perform request).1 = (BoundedQueue.perform capacity slotSize queue request).1 ∧
      (r.perform request).2.StandsFor capacity slotSize
        (BoundedQueue.perform capacity slotSize queue request).2 := by
  cases request with
  | push slot => exact h.push slot
  | pop dest => exact h.pop dest
  | clear =>
      obtain ⟨hsound, rfl, rfl, rfl⟩ := h
      exact ⟨rfl, hsound.clear, rfl, rfl, contents_clear r⟩

/-! ## Runs of calls -/

theorem StandsFor.run {capacity slotSize : Nat} {queue : List Slot}
    (h : r.StandsFor capacity slotSize queue) (requests : List Request) :
    (r.run requests).1 = (BoundedQueue.run capacity slotSize queue requests).1 ∧
      (r.run requests).2.StandsFor capacity slotSize
        (BoundedQueue.run capacity slotSize queue requests).2 := by
  induction requests generalizing r queue with
  | nil => exact ⟨rfl, h⟩
  | cons request rest ih =>
      obtain ⟨hanswer, hnext⟩ := h.perform request
      obtain ⟨hreplies, hlast⟩ := ih hnext
      refine ⟨?_, hlast⟩
      simp only [SlotRing.run, BoundedQueue.run, hasRoom]
      rw [hanswer, hreplies, isEmpty_eq_contents_isEmpty, hnext.contents_eq, hnext.capacity_eq,
        ← hnext.contents_eq, contents_length]

/-- A queue never holds more slots than its capacity. -/
theorem StandsFor.length_le {capacity slotSize : Nat} {queue : List Slot}
    (h : r.StandsFor capacity slotSize queue) : queue.length ≤ capacity := by
  rw [← h.contents_eq, contents_length, ← h.capacity_eq]
  exact h.sound.len_le

/-- A ring can be made of every size that a store may have. From then on every run of calls has
the replies of a bounded queue, the ring holds what the queue holds, and it is well formed. -/
theorem replies_eq_boundedQueue (capacity slotSize : Nat) (hc : 0 < capacity)
    (hs : 0 < slotSize) :
    ((∃ r, make capacity slotSize = .ok r) ↔ capacity * slotSize ≤ maxStore) ∧
      ∀ r, make capacity slotSize = .ok r → ∀ requests : List Request,
        (r.run requests).1 = (BoundedQueue.run capacity slotSize [] requests).1 ∧
        (r.run requests).2.contents = (BoundedQueue.run capacity slotSize [] requests).2 ∧
        (BoundedQueue.run capacity slotSize [] requests).2.length ≤ capacity ∧
        (r.run requests).2.WellFormed ∧
        (r.run requests).2.capacity = capacity ∧ (r.run requests).2.slotSize = slotSize := by
  constructor
  · constructor
    · rintro ⟨r, hr⟩
      exact (make_eq_ok_iff.mp hr).2.2.1
    · intro hm
      exact ⟨_, make_eq_ok_iff.mpr ⟨hc, hs, hm, rfl⟩⟩
  · intro r hr requests
    obtain ⟨hreplies, hlast⟩ := (standsFor_of_make hr).run requests
    exact ⟨hreplies, hlast.contents_eq, hlast.length_le, hlast.sound.toWellFormed,
      hlast.capacity_eq, hlast.slotSize_eq⟩

/-- Two slots of one byte: full, emptied by one, refilled past the end of the store, and cleared,
with a slot and a destination of the wrong length in between. -/
theorem replies_of_two_slots :
    ∃ r, make 2 1 = .ok r ∧
      (r.run [.push [1], .push [2], .push [3, 4], .pop [9], .push [3, 4], .push [5], .pop [9, 9],
        .pop [9], .clear, .pop [8]]).1.map Reply.answer =
        [(.ok true, []), (.ok true, []), (.ok false, []), (.ok true, [1]),
          (.error .lengthMismatch, []), (.ok true, []), (.error .lengthMismatch, [9, 9]),
          (.ok true, [2]), (.ok true, []), (.ok false, [8])] := by
  have hrefines := replies_eq_boundedQueue 2 1 (by decide) (by decide)
  obtain ⟨r, hr⟩ := hrefines.1.mpr (by decide)
  refine ⟨r, hr, ?_⟩
  rw [(hrefines.2 r hr _).1]
  rfl

end SlotRing

end IqTransmit
