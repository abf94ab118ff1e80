import IqTransmit.Proofs.Ring.Refinement
import IqTransmit.Proofs.Sink.Reachable

/-!
Positions in words. Where the product of the sizes is a word, so is the position of every slot, and it
lies in the store. A build that goes on with the word of a greater product makes a store for fewer slots
than the ring counts: it takes as many as the store has room for, and the next push falls outside of it.
-/

namespace IqTransmit

namespace SlotRing

variable {r s : SlotRing} {slot : Slot} {capacity slotSize : Nat}

/-- A ring whose arithmetic is exact: the store has the bytes of all slots, every slot lies in it at its
exact position, and whole slots are taken where there is room and given where one is queued. -/
structure Exact (r : SlotRing) : Prop where
  store_size : r.store.size = r.capacity * r.slotSize
  head_lt : r.head < r.capacity
  tail_lt : r.tail < r.capacity
  start_eq : ∀ cursor < r.capacity, word (cursor * r.slotSize) = cursor * r.slotSize
  stop_eq : ∀ cursor < r.capacity,
    word (word (cursor * r.slotSize) + r.slotSize) = cursor * r.slotSize + r.slotSize
  stop_le : ∀ cursor < r.capacity, cursor * r.slotSize + r.slotSize ≤ r.store.size
  push : ∀ slot : Slot, r.hasRoom = true → slot.length = r.slotSize →
    ∃ after, tryPush slot r = .ok true after
  pop : ∀ dest : List Int8, r.isEmpty = false → dest.length = r.slotSize →
    ∃ oldest after, tryPop dest r = .ok (true, oldest) after

theorem Sound.exact (h : r.Sound) : r.Exact := by
  have hstart (cursor : Nat) (hc : cursor < r.capacity) :
      word (cursor * r.slotSize) = cursor * r.slotSize := by
    have hle := h.slot_le hc
    have hstore := h.store_le
    exact word_of_le_maxStore (by omega)
  constructor
  case store_size => exact h.store_size
  case head_lt => exact h.head_lt
  case tail_lt => exact h.tail_lt
  case start_eq => exact hstart
  case stop_eq =>
    intro cursor hc
    rw [hstart cursor hc]
    exact word_of_le_maxStore ((h.slot_le hc).trans h.store_le)
  case stop_le => exact fun cursor hc => h.slot_le hc
  case push => exact fun slot hroom hslot => ⟨_, tryPush_of_room h hroom hslot⟩
  case pop => exact fun dest hempty hdest => ⟨_, _, tryPop_of_queued h hempty hdest⟩

/-! ## Builds that do not check the product -/

/-- Where the product of the sizes is a word both builds make the same ring. -/
theorem makeUnchecked_eq_make (h : capacity * slotSize < 2 ^ 64) :
    makeUnchecked capacity slotSize = make capacity slotSize := by
  have hword : word (capacity * slotSize) = capacity * slotSize := Nat.mod_eq_of_lt h
  rw [makeUnchecked, make, hword]

/-- A slot that would end beyond the store is not found. -/
theorem bounds_of_gt {cursor : Nat} (hstore : r.store.size ≤ maxStore) (hsize : r.slotSize < 2 ^ 64)
    (hle : cursor * r.slotSize ≤ r.store.size)
    (hgt : r.store.size < cursor * r.slotSize + r.slotSize) :
    r.bounds cursor = .error .outOfRange := by
  have hstart : word (cursor * r.slotSize) = cursor * r.slotSize :=
    word_of_le_maxStore (hle.trans hstore)
  simp only [bounds, hstart]
  rw [if_neg]
  simp only [word, maxStore] at *
  omega

/-- A ring that was filled from its first slot on takes the next one in its turn while the store has
room for that and the cursor need not return. -/
theorem run_pushes (count : Nat) (hstore : r.store.size ≤ maxStore)
    (hslot : slot.length = r.slotSize) (hlen : r.len = r.head) (hroom : r.head + count < r.capacity)
    (hfits : (r.head + count) * r.slotSize ≤ r.store.size) :
    let after := (r.run (List.replicate count (.push slot))).2
    after.capacity = r.capacity ∧ after.slotSize = r.slotSize ∧ after.store.size = r.store.size ∧
      after.head = r.head + count ∧ after.len = r.head + count := by
  induction count generalizing r with
  | zero => exact ⟨rfl, rfl, rfl, rfl, hlen⟩
  | succ count ih =>
      have hsum : r.head + (count + 1) = r.head + 1 + count := by omega
      have hnext : r.head * r.slotSize + r.slotSize ≤ r.store.size := by
        rw [← Nat.succ_mul]
        exact (Nat.mul_le_mul_right _ (by omega)).trans hfits
      have hhead : (r.enqueue slot).head = r.head + 1 := Nat.mod_eq_of_lt (by omega)
      have hsize : (r.enqueue slot).store.size = r.store.size := size_overwrite _ _ _
      have hpush : (r.perform (.push slot)).2 = r.enqueue slot := by
        have hfree : r.hasRoom = true := decide_eq_true (by omega)
        simp only [perform, tryPush_of_bounds hfree hslot (bounds_of_le hstore hnext)]
      have hrest := ih (r := r.enqueue slot) (hsize ▸ hstore) hslot
        (by rw [hhead, ← hlen]; rfl) (by rw [hhead, ← hsum]; exact hroom)
        (by rw [hhead, ← hsum, hsize]; exact hfits)
      rw [hhead, hsize, ← hsum] at hrest
      simp only [List.replicate_succ, run, hpush]
      exact hrest

/-- A ring whose sizes have a greater product does not find room in its store for a slot that it has
room for by its own count. -/
theorem push_out_of_range (hmake : makeUnchecked capacity slotSize = .ok r)
    (hwraps : 2 ^ 64 ≤ capacity * slotSize) (hsize : slotSize < 2 ^ 64)
    (hslot : slot.length = slotSize) :
    ∃ pushes < capacity, let full := (r.run (List.replicate pushes (.push slot))).2
      full.hasRoom = true ∧ tryPush slot full = .error .outOfRange full := by
  obtain ⟨-, hpos, hstore, rfl⟩ := makeOfSize_eq_ok_iff.mp hmake
  generalize hbytes : word (capacity * slotSize) = bytes at hstore
  have hfits : bytes / slotSize * slotSize ≤ bytes := Nat.div_mul_le_self _ _
  have hover : bytes < bytes / slotSize * slotSize + slotSize := Nat.lt_div_mul_add hpos
  have hlt : bytes / slotSize < capacity := by
    have hword : bytes < 2 ^ 64 := hbytes ▸ Nat.mod_lt _ (by omega)
    apply Nat.lt_of_mul_lt_mul_right
    exact (hfits.trans_lt hword).trans_le hwraps
  refine ⟨bytes / slotSize, hlt, ?_⟩
  have hfull := run_pushes (r := ⟨Array.replicate bytes 0, slotSize, capacity, 0, 0, 0⟩)
    (bytes / slotSize) (by simpa using hstore) hslot rfl (by simpa using hlt) (by simpa using hfits)
  simp only [Array.size_replicate, Nat.zero_add] at hfull
  generalize (run _ _).2 = full at hfull ⊢
  obtain ⟨hcapacity, hslotSize, hsize', hhead, hlen⟩ := hfull
  have hroom : full.hasRoom = true := decide_eq_true (by omega)
  have hbounds : full.bounds full.head = .error .outOfRange := by
    apply bounds_of_gt
    · rwa [hsize']
    · rwa [hslotSize]
    · rwa [hhead, hslotSize, hsize']
    · rwa [hhead, hslotSize, hsize']
  refine ⟨hroom, ?_⟩
  simp only [tryPush, if_pos hroom, hbounds]

/-- Of sizes that a sink accepts, those of a product that a store may have make a ring in every build.
A build that does not check the product makes rings of other sizes too. If the product is a word, the
arithmetic of each ring that it makes is exact, whatever calls there were. If not, its store is not of
that size, and a run of pushes leads to a slot that it has room for and does not find. -/
theorem unchecked_exact_of_word {config : SinkConfig} (hvalid : config.validate = .ok ())
    (hsize : config.slotSize < 2 ^ 64) :
    (config.bufferCount * config.slotSize ≤ maxStore →
      ∃ r, makeUnchecked config.bufferCount config.slotSize = .ok r ∧
        make config.bufferCount config.slotSize = .ok r) ∧
    ∀ r, makeUnchecked config.bufferCount config.slotSize = .ok r →
      (config.bufferCount * config.slotSize < 2 ^ 64 → ∀ requests : List Request,
        (r.run requests).2.capacity = config.bufferCount ∧
        (r.run requests).2.slotSize = config.slotSize ∧ (r.run requests).2.Exact) ∧
      (2 ^ 64 ≤ config.bufferCount * config.slotSize →
        r.store.size ≠ config.bufferCount * config.slotSize ∧
        ∀ slot : Slot, slot.length = config.slotSize → ∃ pushes < config.bufferCount,
          let full := (r.run (List.replicate pushes (.push slot))).2
          full.hasRoom = true ∧ tryPush slot full = .error .outOfRange full) := by
  obtain ⟨hcount, hpos, -⟩ := TransmitSink.validate_eq_ok hvalid
  constructor
  · intro hstore
    have hmake := make_eq_ok_iff.mpr ⟨hcount, hpos, hstore, rfl⟩
    have hword : config.bufferCount * config.slotSize < 2 ^ 64 :=
      hstore.trans_lt (by decide)
    exact ⟨_, (makeUnchecked_eq_make hword).trans hmake, hmake⟩
  · intro r hmake
    constructor
    · intro hword requests
      rw [makeUnchecked_eq_make hword] at hmake
      have hstands := ((standsFor_of_make hmake).run requests).2
      exact ⟨hstands.capacity_eq, hstands.slotSize_eq, hstands.sound.exact⟩
    · intro hwraps
      refine ⟨?_, fun slot hslot => push_out_of_range hmake hwraps hsize hslot⟩
      obtain ⟨-, -, hstore, rfl⟩ := makeOfSize_eq_ok_iff.mp hmake
      simp only [Array.size_replicate, maxStore] at hstore ⊢
      omega

/-- At the usual sizes the first push and the pop after it succeed; of two bytes for each of 2 ^ 63
slots there is a ring too, and the first push is out of range. -/
theorem unchecked_at_usual_sizes_and_wrapped :
    (∃ r, makeUnchecked 15 0x40000 = .ok r ∧ ∀ requests, (r.run requests).2.Exact) ∧
      ∃ r, makeUnchecked (2 ^ 63) 2 = .ok r ∧ ∀ slot : Slot, slot.length = 2 →
        ∃ pushes < 2 ^ 63, let full := (r.run (List.replicate pushes (.push slot))).2
          full.hasRoom = true ∧ tryPush slot full = .error .outOfRange full := by
  have husual := @unchecked_exact_of_word { bufferCount := 15, slotSize := 0x40000 }
    (by decide) (by decide)
  have hwrapped := @unchecked_exact_of_word { bufferCount := 2 ^ 63, slotSize := 2 }
    (by decide) (by decide)
  obtain ⟨r, hmake, -⟩ := husual.1 (by decide)
  refine ⟨⟨r, hmake, fun requests => ((husual.2 r hmake).1 (by decide) requests).2.2⟩, ?_⟩
  exact ⟨_, rfl, ((hwrapped.2 _ rfl).2 (by decide)).2⟩

/-- A sink accepts 2 ^ 63 slots of two bytes. The word of the product is zero, so that the store is
empty while the ring has room, and the first slot of the right size is out of range. -/
theorem validate_accepts_wrapping_product :
    ({ bufferCount := 2 ^ 63, slotSize := 2 } : SinkConfig).validate = .ok () ∧
      make (2 ^ 63) 2 = .error .storageSize ∧
      ∃ r, makeUnchecked (2 ^ 63) 2 = .ok r ∧ r.store.size = 0 ∧ r.hasRoom = true ∧
        tryPush [1, 2] r = .error .outOfRange r ∧ ¬ r.Exact := by
  refine ⟨by decide, rfl, _, rfl, rfl, rfl, rfl, fun hexact => ?_⟩
  have hempty := hexact.store_size
  rw [Array.size_replicate] at hempty
  exact absurd hempty (by decide)

end SlotRing

end IqTransmit
