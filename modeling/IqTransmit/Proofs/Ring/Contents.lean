import IqTransmit.Ring
import Mathlib.Data.Nat.ModEq

/-!
What the operations of a ring do to its queued slots. A push into a ring with room, a pop of its
oldest slot and a clear are stated as plain updates of cursors and store; each keeps the ring
sound and acts on the contents as the operation of the same name acts on a list.
-/

namespace IqTransmit

/-! ## Writing into a store -/

@[simp] theorem size_overwrite (store : Array Int8) (start : Nat) (bytes : List Int8) :
    (overwrite store start bytes).size = store.size := by
  induction bytes generalizing store start with
  | nil => rfl
  | cons b rest ih => rw [overwrite, ih, Array.size_setIfInBounds]

theorem getElem?_overwrite (store : Array Int8) (start : Nat) (bytes : List Int8) (i : Nat)
    (hi : i < store.size) :
    (overwrite store start bytes)[i]? =
      if start ≤ i ∧ i < start + bytes.length then bytes[i - start]? else store[i]? := by
  induction bytes generalizing store start with
  | nil =>
      have : ¬ (start ≤ i ∧ i < start + ([] : List Int8).length) := by
        rw [List.length_nil]
        omega
      rw [overwrite, if_neg this]
  | cons b rest ih =>
      rw [overwrite, ih _ _ (by simpa using hi), Array.getElem?_setIfInBounds]
      simp only [List.length_cons]
      by_cases hs : start = i
      · subst hs
        have hout : ¬ (start + 1 ≤ start ∧ start < start + 1 + rest.length) := by omega
        rw [if_neg hout, if_pos rfl, if_pos hi, if_pos (by omega), Nat.sub_self]
        rfl
      · by_cases hin : start + 1 ≤ i ∧ i < start + 1 + rest.length
        · have hsub : i - start = i - (start + 1) + 1 := by omega
          rw [if_pos hin, if_pos (by omega), hsub, List.getElem?_cons_succ]
        · rw [if_neg hin, if_neg hs, if_neg (by omega)]

/-- The bytes between two positions of a store, one by one. -/
private theorem getElem?_extract_toList (store : Array Int8) (start stop i : Nat)
    (h : stop ≤ store.size) :
    (store.extract start stop).toList[i]? =
      if i < stop - start then store[start + i]? else none := by
  rw [Array.getElem?_toList, Array.getElem?_extract, Nat.min_eq_left h]

/-- Reading back where a slot was written gives the slot. -/
theorem extract_overwrite_self (store : Array Int8) (start : Nat) (bytes : List Int8)
    (h : start + bytes.length ≤ store.size) :
    ((overwrite store start bytes).extract start (start + bytes.length)).toList = bytes := by
  apply List.ext_getElem?
  intro i
  rw [getElem?_extract_toList _ _ _ _ (by simpa using h), Nat.add_sub_cancel_left]
  by_cases hi : i < bytes.length
  · rw [if_pos hi, getElem?_overwrite _ _ _ _ (by omega), if_pos (by omega),
      Nat.add_sub_cancel_left]
  · rw [if_neg hi, List.getElem?_eq_none (Nat.le_of_not_lt hi)]

/-- A write leaves every range of the store that it does not meet. -/
theorem extract_overwrite_of_disjoint (store : Array Int8) (start : Nat) (bytes : List Int8)
    (first last : Nat) (hlast : last ≤ store.size)
    (h : last ≤ start ∨ start + bytes.length ≤ first) :
    ((overwrite store start bytes).extract first last).toList =
      (store.extract first last).toList := by
  apply List.ext_getElem?
  intro i
  rw [getElem?_extract_toList _ _ _ _ (by simpa using hlast),
    getElem?_extract_toList _ _ _ _ hlast]
  by_cases hi : i < last - first
  · rw [if_pos hi, if_pos hi, getElem?_overwrite _ _ _ _ (by omega), if_neg (by omega)]
  · rw [if_neg hi, if_neg hi]

theorem word_of_le_maxStore {n : Nat} (h : n ≤ maxStore) : word n = n := by
  apply Nat.mod_eq_of_lt
  simp only [maxStore] at h
  omega

namespace SlotRing

/-! ## Sound rings -/

/-- A well-formed ring whose store is one that memory can hold, so that positions in it are
exact in words. -/
structure Sound (r : SlotRing) : Prop extends WellFormed r where
  store_le : r.store.size ≤ maxStore

variable {r : SlotRing} {slot : Slot}

theorem makeOfSize_eq_ok_iff {capacity slotSize size : Nat} :
    makeOfSize capacity slotSize size = .ok r ↔
      0 < capacity ∧ 0 < slotSize ∧ size ≤ maxStore ∧
        r = ⟨Array.replicate size 0, slotSize, capacity, 0, 0, 0⟩ := by
  have hbind {α β : Type} (fault : Fault) (f : α → Except Fault β) :
      ((.error fault : Except Fault α) >>= f) = .error fault := rfl
  simp only [makeOfSize]
  by_cases hc : 0 < capacity
  · by_cases hs : 0 < slotSize
    · by_cases hm : size ≤ maxStore
      · simp [hc, hs, hm, pure, Except.pure, eq_comm]
      · simp [hc, hs, hm, throw, throwThe, MonadExceptOf.throw, hbind]
    · simp [hc, hs, throw, throwThe, MonadExceptOf.throw, hbind]
  · simp [hc, throw, throwThe, MonadExceptOf.throw, hbind]

theorem make_eq_ok_iff {capacity slotSize : Nat} :
    make capacity slotSize = .ok r ↔
      0 < capacity ∧ 0 < slotSize ∧ capacity * slotSize ≤ maxStore ∧
        r = ⟨Array.replicate (capacity * slotSize) 0, slotSize, capacity, 0, 0, 0⟩ :=
  makeOfSize_eq_ok_iff

theorem sound_of_make {capacity slotSize : Nat} (h : make capacity slotSize = .ok r) :
    r.Sound := by
  obtain ⟨hc, hs, hm, rfl⟩ := make_eq_ok_iff.mp h
  refine ⟨⟨hc, hs, by simp, hc, hc, Nat.zero_le _, ?_⟩, by simpa using hm⟩
  simp

/-- The slot of every cursor lies in the store, at its exact position. -/
theorem Sound.slot_le (h : r.Sound) {cursor : Nat} (hc : cursor < r.capacity) :
    cursor * r.slotSize + r.slotSize ≤ r.store.size := by
  rw [h.store_size, ← Nat.succ_mul]
  exact Nat.mul_le_mul_right _ hc

/-- A slot that ends within the store is found there. -/
theorem bounds_of_le {cursor : Nat} (hstore : r.store.size ≤ maxStore)
    (hle : cursor * r.slotSize + r.slotSize ≤ r.store.size) :
    r.bounds cursor = .ok (cursor * r.slotSize, cursor * r.slotSize + r.slotSize) := by
  have hstart : word (cursor * r.slotSize) = cursor * r.slotSize :=
    word_of_le_maxStore (by omega)
  have hstop : word (cursor * r.slotSize + r.slotSize) = cursor * r.slotSize + r.slotSize :=
    word_of_le_maxStore (Nat.le_trans hle hstore)
  simp only [bounds, hstart, hstop]
  rw [if_pos ⟨Nat.le_add_right _ _, hle⟩]

theorem Sound.bounds_eq (h : r.Sound) {cursor : Nat} (hc : cursor < r.capacity) :
    r.bounds cursor = .ok (cursor * r.slotSize, cursor * r.slotSize + r.slotSize) :=
  bounds_of_le h.store_le (h.slot_le hc)

/-- Within one turn, different distances from a cursor lead to different slots. -/
theorem cursor_injective {capacity tail i j : Nat} (hi : i < capacity) (hj : j < capacity)
    (he : (tail + i) % capacity = (tail + j) % capacity) : i = j := by
  have hij : i ≡ j [MOD capacity] := Nat.ModEq.add_left_cancel' tail he
  rwa [Nat.ModEq, Nat.mod_eq_of_lt hi, Nat.mod_eq_of_lt hj] at hij

/-! ## Successful operations as updates -/

/-- The ring after a slot was queued. -/
def enqueue (r : SlotRing) (slot : Slot) : SlotRing :=
  { r with
    store := overwrite r.store (r.head * r.slotSize) slot
    head := (r.head + 1) % r.capacity
    len := r.len + 1 }

/-- The ring after its oldest slot was taken. -/
def dequeue (r : SlotRing) : SlotRing :=
  { r with tail := (r.tail + 1) % r.capacity, len := r.len - 1 }

theorem tryPush_of_bounds (hroom : r.hasRoom = true) (hslot : slot.length = r.slotSize)
    (hbounds : r.bounds r.head = .ok (r.head * r.slotSize, r.head * r.slotSize + r.slotSize)) :
    tryPush slot r = .ok true (r.enqueue slot) := by
  simp only [tryPush]
  rw [if_pos hroom, hbounds]
  simp only [Nat.add_sub_cancel_left]
  rw [if_pos hslot]
  rfl

theorem tryPush_of_room (h : r.Sound) (hroom : r.hasRoom = true)
    (hslot : slot.length = r.slotSize) : tryPush slot r = .ok true (r.enqueue slot) :=
  tryPush_of_bounds hroom hslot (h.bounds_eq h.head_lt)

theorem tryPush_of_length_ne (h : r.Sound) (hroom : r.hasRoom = true)
    (hslot : slot.length ≠ r.slotSize) : tryPush slot r = .error .lengthMismatch r := by
  simp only [tryPush]
  rw [if_pos hroom, h.bounds_eq h.head_lt]
  simp only [Nat.add_sub_cancel_left]
  rw [if_neg hslot]

theorem tryPush_of_full (hroom : r.hasRoom = false) : tryPush slot r = .ok false r := by
  simp only [tryPush]
  rw [if_neg (by simp [hroom])]

theorem tryPop_of_empty (dest : List Int8) (hempty : r.isEmpty = true) :
    tryPop dest r = .ok (false, dest) r := by
  simp only [tryPop]
  rw [if_pos hempty]

theorem tryPop_of_length_ne (h : r.Sound) {dest : List Int8} (hempty : r.isEmpty = false)
    (hdest : dest.length ≠ r.slotSize) : tryPop dest r = .error .lengthMismatch r := by
  simp only [tryPop]
  rw [if_neg (by simp [hempty]), h.bounds_eq h.tail_lt]
  simp only [Nat.add_sub_cancel_left]
  rw [if_neg hdest]

theorem tryPop_of_queued (h : r.Sound) {dest : List Int8} (hempty : r.isEmpty = false)
    (hdest : dest.length = r.slotSize) :
    tryPop dest r = .ok (true, r.slotAt r.tail) r.dequeue := by
  simp only [tryPop]
  rw [if_neg (by simp [hempty]), h.bounds_eq h.tail_lt]
  simp only [Nat.add_sub_cancel_left]
  rw [if_pos hdest]
  rfl

/-! ## Contents -/

@[simp] theorem contents_length (r : SlotRing) : r.contents.length = r.len := by
  simp [contents]

theorem contents_eq_nil_iff (r : SlotRing) : r.contents = [] ↔ r.isEmpty = true := by
  rw [← List.length_eq_zero_iff, contents_length, isEmpty, beq_iff_eq]

theorem slotAt_length (h : r.Sound) {position : Nat} (hp : position < r.capacity) :
    (r.slotAt position).length = r.slotSize := by
  have hle := h.slot_le hp
  simp only [slotAt, Array.length_toList, Array.size_extract]
  omega

/-- Every queued slot has the size of the ring's slots. -/
theorem length_of_mem_contents (h : r.Sound) (hmem : slot ∈ r.contents) :
    slot.length = r.slotSize := by
  obtain ⟨i, _, rfl⟩ := List.mem_map.mp hmem
  exact slotAt_length h (Nat.mod_lt _ h.capacity_pos)

theorem Sound.len_eq_of_full (h : r.Sound) (hfull : r.hasRoom = false) : r.len = r.capacity := by
  have hle := h.len_le
  simp only [hasRoom, decide_eq_false_iff_not] at hfull
  omega

theorem Sound.clear (h : r.Sound) : r.clear.Sound :=
  ⟨⟨h.capacity_pos, h.slotSize_pos, h.store_size, h.capacity_pos, h.capacity_pos,
    Nat.zero_le _, by simp [SlotRing.clear]⟩, h.store_le⟩

@[simp] theorem contents_clear (r : SlotRing) : r.clear.contents = [] := rfl

theorem Sound.enqueue (h : r.Sound) (hroom : r.hasRoom = true) : (r.enqueue slot).Sound := by
  have hlen : r.len < r.capacity := by simpa [hasRoom] using hroom
  refine ⟨⟨h.capacity_pos, h.slotSize_pos, ?_, Nat.mod_lt _ h.capacity_pos, h.tail_lt, hlen, ?_⟩, ?_⟩
  · simpa [SlotRing.enqueue] using h.store_size
  · simp only [SlotRing.enqueue]
    rw [h.head_eq, Nat.mod_add_mod, Nat.add_assoc]
  · simpa [SlotRing.enqueue] using h.store_le

theorem Sound.dequeue (h : r.Sound) (hempty : r.isEmpty = false) : r.dequeue.Sound := by
  have hlen : 0 < r.len := by
    simp only [isEmpty, beq_eq_false_iff_ne] at hempty
    omega
  refine ⟨⟨h.capacity_pos, h.slotSize_pos, h.store_size, h.head_lt, Nat.mod_lt _ h.capacity_pos,
    ?_, ?_⟩, h.store_le⟩
  · have := h.len_le
    simp only [SlotRing.dequeue]
    omega
  · have hsum : r.tail + 1 + (r.len - 1) = r.tail + r.len := by omega
    simp only [SlotRing.dequeue]
    rw [h.head_eq, Nat.mod_add_mod, hsum]

/-- Queueing writes outside of every slot that is queued already. -/
theorem slotAt_enqueue_of_ne (h : r.Sound) (hslot : slot.length = r.slotSize) {position : Nat}
    (hp : position < r.capacity) (hne : position ≠ r.head) :
    (r.enqueue slot).slotAt position = r.slotAt position := by
  apply extract_overwrite_of_disjoint _ _ _ _ _ (h.slot_le hp)
  rw [hslot]
  rcases Nat.lt_or_gt_of_ne hne with hlt | hgt
  · left
    rw [← Nat.succ_mul]
    exact Nat.mul_le_mul_right _ hlt
  · right
    rw [← Nat.succ_mul]
    exact Nat.mul_le_mul_right _ hgt

theorem slotAt_enqueue_self (h : r.Sound) (hslot : slot.length = r.slotSize) :
    (r.enqueue slot).slotAt r.head = slot := by
  have hle := h.slot_le h.head_lt
  rw [← hslot] at hle
  simp only [slotAt, SlotRing.enqueue]
  rw [← hslot]
  exact extract_overwrite_self _ _ _ hle

/-- A queued slot comes last. -/
theorem contents_enqueue (h : r.Sound) (hroom : r.hasRoom = true)
    (hslot : slot.length = r.slotSize) :
    (r.enqueue slot).contents = r.contents ++ [slot] := by
  have hlen : r.len < r.capacity := by simpa [hasRoom] using hroom
  have hold : (List.range r.len).map
      (fun i => (r.enqueue slot).slotAt ((r.tail + i) % r.capacity)) = r.contents := by
    apply List.map_congr_left
    intro i hi
    have hi : i < r.len := List.mem_range.mp hi
    apply slotAt_enqueue_of_ne h hslot (Nat.mod_lt _ h.capacity_pos)
    rw [h.head_eq]
    intro he
    have := cursor_injective (Nat.lt_trans hi hlen) hlen he
    omega
  have hnew : (r.enqueue slot).slotAt ((r.tail + r.len) % r.capacity) = slot := by
    rw [← h.head_eq]
    exact slotAt_enqueue_self h hslot
  calc
    (r.enqueue slot).contents =
        (List.range (r.len + 1)).map
          (fun i => (r.enqueue slot).slotAt ((r.tail + i) % r.capacity)) := rfl
    _ = r.contents ++ [slot] := by
      rw [List.range_succ, List.map_append, hold, List.map_singleton, hnew]

/-- The slot at the read cursor is the oldest one; taking it leaves the others. -/
theorem contents_dequeue (h : r.Sound) (hempty : r.isEmpty = false) :
    r.contents = r.slotAt r.tail :: r.dequeue.contents := by
  have hlen : r.len = r.len - 1 + 1 := by
    simp only [isEmpty, beq_eq_false_iff_ne] at hempty
    omega
  have hrest : (List.range (r.len - 1)).map
      (fun i => r.slotAt ((r.tail + (i + 1)) % r.capacity)) = r.dequeue.contents := by
    apply List.map_congr_left
    intro i _
    have hsum : r.tail + (i + 1) = r.tail + 1 + i := by omega
    simp only [SlotRing.dequeue, slotAt]
    rw [hsum, Nat.mod_add_mod]
  calc
    r.contents = (List.range (r.len - 1 + 1)).map
        (fun i => r.slotAt ((r.tail + i) % r.capacity)) := by rw [← hlen]; rfl
    _ = r.slotAt r.tail :: r.dequeue.contents := by
      rw [List.range_succ_eq_map, List.map_cons, List.map_map, Nat.add_zero,
        Nat.mod_eq_of_lt h.tail_lt, ← hrest]
      rfl

end SlotRing

end IqTransmit
