import IqTransmit.Proofs.Engine.Device

/-!
What an output has accepted. Bytes reach the device in the order in which they were written,
whether a buffer held them for a while or not; after a flush that went well the device has recorded
all of them. Over a device that never fails an output never does.
-/

namespace IqTransmit

namespace Output

variable {o p q : Output} {offered more : List Int8}

/-- The bytes that an output has accepted: those recorded, and those that its buffer holds. -/
def accepted (o : Output) : List Int8 :=
  match o.capacity with
  | none => o.bytes
  | some _ => o.bytes ++ o.portions.reverse.flatten

/-- The bytes in the buffer are counted. -/
def Counted (o : Output) : Prop := o.held = o.portions.reverse.flatten.length

/-- An output has accepted the bytes `offered`, and is as sound as before. -/
structure Accepted (o p : Output) (offered : List Int8) : Prop where
  accepted_eq : p.accepted = o.accepted ++ offered
  counted : p.Counted
  reliable : o.device.Reliable → p.device.Reliable

theorem hold_accepted (ho : o.Counted) {capacity : Nat} (hcapacity : o.capacity = some capacity) :
    Accepted o (o.hold offered) offered := by
  refine ⟨?_, ?_, id⟩
  · simp [accepted, hold, bytes, hcapacity]
  · simp only [Counted] at ho
    simp [Counted, hold, ho]

/-- Bytes may go past the buffer while it holds none. -/
theorem writeThrough_accepted (ho : o.Counted)
    (hpast : o.capacity = none ∨ o.portions.reverse.flatten = [] ∨ offered = [])
    (h : (o.writeThrough offered).1 = .ok ()) :
    Accepted o (o.writeThrough offered).2 offered := by
  obtain ⟨taken, rest, rfl, hrecorded, hall⟩ :=
    o.device.writeAll_recorded "failed to write whole buffer" offered
  obtain rfl : rest = [] := hall h
  rw [List.append_nil] at hpast hrecorded ⊢
  refine ⟨?_, ho, hrecorded.reliable⟩
  cases hcapacity : o.capacity with
  | none => simpa [accepted, writeThrough, bytes, hcapacity] using hrecorded.bytes_eq
  | some capacity =>
      rcases hpast.resolve_left (hcapacity ▸ nofun) with hnone | rfl
      · simpa [accepted, writeThrough, bytes, hcapacity, hnone] using hrecorded.bytes_eq
      · simpa [accepted, writeThrough, bytes, hcapacity] using hrecorded.bytes_eq

/-- Spilling hands over the whole buffer, if it does not fail. -/
theorem spill_accepted {capacity : Nat} (hcapacity : o.capacity = some capacity)
    (h : o.spill.1 = .ok ()) :
    Accepted o o.spill.2 [] ∧ o.spill.2.portions.reverse.flatten = [] ∧
      o.spill.2.bytes = o.accepted := by
  obtain ⟨taken, rest, hsplit, hrecorded, hall⟩ :=
    o.device.writeAll_recorded "failed to write the buffered data" o.portions.reverse.flatten
  obtain rfl : rest = [] := hall h
  rw [List.append_nil] at hsplit
  have hleft : o.portions.reverse.flatten.drop (o.spill.2.device.recorded - o.device.recorded) =
      [] := by
    rw [hsplit]
    refine List.drop_eq_nil_of_le ?_
    have hcount : o.spill.2.device.recorded = o.device.recorded + taken.length :=
      hrecorded.recorded_eq
    omega
  have hportions : o.spill.2.portions.reverse.flatten = [] := by
    rw [← hleft]
    exact List.append_nil _
  have hbytes : o.spill.2.bytes = o.accepted := by
    rw [accepted, hcapacity, hsplit]
    exact hrecorded.bytes_eq
  refine ⟨⟨?_, ?_, hrecorded.reliable⟩, hportions, hbytes⟩
  · have hsame : o.spill.2.capacity = some capacity := hcapacity
    rw [List.append_nil, ← hbytes, accepted, hsame]
    simp only [hportions, List.append_nil]
  · rw [Counted, hportions]
    exact congrArg List.length hleft

theorem Accepted.trans (hop : Accepted o p offered) (hpq : Accepted p q more) :
    Accepted o q (offered ++ more) := by
  refine ⟨?_, hpq.counted, hpq.reliable ∘ hop.reliable⟩
  rw [hpq.accepted_eq, hop.accepted_eq, List.append_assoc]

/-- What a write does with a buffer of some capacity once that has made room. -/
def place (o : Output) (capacity : Nat) (offered : List Int8) : Except String Unit × Output :=
  if capacity ≤ offered.length then o.writeThrough offered else (.ok (), o.hold offered)

/-- The four things that a write to a buffer can be: bytes that leave space are held, more than
there is space for spill the buffer first, which may fail, and bytes that just fill it do not. -/
theorem write_cases {capacity : Nat} (hcapacity : o.capacity = some capacity)
    (offered : List Int8) :
    o.write offered = (.ok (), o.hold offered) ∨
      (∃ problem, o.spill.1 = .error problem ∧ o.write offered = (.error problem, o.spill.2)) ∨
      (o.spill.1 = .ok () ∧ o.write offered = o.spill.2.place capacity offered) ∨
      (offered.length = capacity - o.held ∧ o.write offered = o.place capacity offered) := by
  simp only [write, hcapacity]
  rcases Nat.lt_trichotomy offered.length (capacity - o.held) with hlt | heq | hgt
  · rw [if_pos hlt]
    exact .inl rfl
  · rw [if_neg (Nat.not_lt.mpr (Nat.le_of_eq heq.symm)), if_neg (Nat.not_lt.mpr (Nat.le_of_eq heq))]
    exact .inr (.inr (.inr ⟨heq, rfl⟩))
  · rw [if_neg (Nat.lt_asymm hgt), if_pos hgt]
    cases hspill : o.spill with
    | mk result p =>
        cases result with
        | error problem => exact .inr (.inl ⟨problem, rfl, rfl⟩)
        | ok _ => exact .inr (.inr (.inl ⟨rfl, rfl⟩))

theorem place_accepted {capacity : Nat} (ho : o.Counted) (hcapacity : o.capacity = some capacity)
    (hpast : capacity ≤ offered.length → o.portions.reverse.flatten = [] ∨ offered = [])
    (h : (o.place capacity offered).1 = .ok ()) :
    Accepted o (o.place capacity offered).2 offered := by
  simp only [place] at h ⊢
  split
  · rename_i hlarge
    rw [if_pos hlarge] at h
    exact writeThrough_accepted ho (.inr (hpast hlarge)) h
  · exact hold_accepted ho hcapacity

/-- A write that goes well accepts all of its bytes. -/
theorem write_accepted (ho : o.Counted) (h : (o.write offered).1 = .ok ()) :
    Accepted o (o.write offered).2 offered := by
  cases hcapacity : o.capacity with
  | none =>
      simp only [write, hcapacity] at h ⊢
      exact writeThrough_accepted ho (.inl hcapacity) h
  | some capacity =>
      rcases write_cases hcapacity offered with
        hw | ⟨problem, _, hw⟩ | ⟨hspilled, hw⟩ | ⟨hfills, hw⟩
      · rw [hw]
        exact hold_accepted ho hcapacity
      · rw [hw] at h
        cases h
      · rw [hw] at h ⊢
        obtain ⟨hp, hnone, _⟩ := spill_accepted hcapacity hspilled
        exact hp.trans (place_accepted hp.counted hcapacity (fun _ => .inl hnone) h)
      · rw [hw] at h ⊢
        refine place_accepted ho hcapacity (fun hlarge => ?_) h
        -- a buffer that such bytes just fill is empty
        rw [Counted] at ho
        rcases Nat.eq_zero_or_pos offered.length with hzero | hpos
        · exact .inr (List.length_eq_zero_iff.mp hzero)
        · exact .inl (List.length_eq_zero_iff.mp (by omega))

/-- After a flush that goes well the device has recorded all bytes. -/
theorem flush_bytes (h : o.flush.1 = .ok ()) : o.flush.2.bytes = o.accepted := by
  simp only [flush] at h ⊢
  cases hcapacity : o.capacity with
  | none => rw [accepted, hcapacity]
  | some capacity =>
      simp only [hcapacity] at h ⊢
      have hspilled := spill_accepted hcapacity
      cases hspill : o.spill with
      | mk result p =>
          rw [hspill] at h hspilled
          cases result with
          | error problem => cases h
          | ok _ => exact (hspilled rfl).2.2

/-! ## Runs of writes -/

/-- Writes slots one after another, up to the first error. -/
def writeEach (o : Output) : List (List Int8) → Except String Unit × Output
  | [] => (.ok (), o)
  | slot :: rest =>
      match o.write slot with
      | (.error problem, o) => (.error problem, o)
      | (.ok (), o) => o.writeEach rest

/-- Writes slots one after another and then flushes, up to the first error. -/
def sendEach (o : Output) (slots : List (List Int8)) : Except String Unit × Output :=
  match o.writeEach slots with
  | (.error problem, o) => (.error problem, o)
  | (.ok (), o) => o.flush

variable {slots : List (List Int8)} {slot : List Int8}

theorem writeEach_append (h : o.writeEach slots = (.ok (), p)) (more : List (List Int8)) :
    o.writeEach (slots ++ more) = p.writeEach more := by
  induction slots generalizing o with
  | nil =>
      cases h
      rfl
  | cons slot rest ih =>
      rw [List.cons_append, writeEach]
      rw [writeEach] at h
      cases hwrite : o.write slot with
      | mk result q =>
          rw [hwrite] at h
          cases result with
          | error problem => cases h
          | ok _ => exact ih h

theorem writeEach_concat (h : o.writeEach slots = (.ok (), p)) (slot : List Int8) :
    o.writeEach (slots ++ [slot]) = p.write slot := by
  rw [writeEach_append h, writeEach]
  cases hwrite : p.write slot with
  | mk result q =>
      cases result with
      | error problem => rfl
      | ok _ => rfl

theorem writeEach_accepted (ho : o.Counted) (h : o.writeEach slots = (.ok (), p)) :
    Accepted o p slots.flatten := by
  induction slots generalizing o with
  | nil =>
      cases h
      exact ⟨(List.append_nil _).symm, ho, id⟩
  | cons slot rest ih =>
      rw [writeEach] at h
      have hslot : (o.write slot).1 = .ok () → Accepted o (o.write slot).2 slot := write_accepted ho
      cases hwrite : o.write slot with
      | mk result q =>
          rw [hwrite] at h hslot
          cases result with
          | error problem => cases h
          | ok _ =>
              have hq := hslot rfl
              exact hq.trans (ih hq.counted h)

/-- Whatever was written and flushed without an error is what the device has recorded. -/
theorem sendEach_bytes (ho : o.Counted) (h : o.sendEach slots = (.ok (), p)) :
    p.bytes = o.accepted ++ slots.flatten := by
  rw [sendEach] at h
  cases hwrite : o.writeEach slots with
  | mk result q =>
      rw [hwrite] at h
      cases result with
      | error problem => cases h
      | ok _ =>
          have hq : q.flush = (.ok (), p) := h
          have hflush := flush_bytes (o := q) (by rw [hq])
          rw [← (writeEach_accepted ho hwrite).accepted_eq, ← hflush, hq]

/-! ## Outputs that never fail -/

theorem reliable_writeThrough (ho : o.device.Reliable) (offered : List Int8) :
    (o.writeThrough offered).1 = .ok () := ho.writeAll _ offered

theorem reliable_spill (ho : o.device.Reliable) : o.spill.1 = .ok () := ho.writeAll _ _

theorem reliable_place (ho : o.device.Reliable) (capacity : Nat) (offered : List Int8) :
    (o.place capacity offered).1 = .ok () := by
  simp only [place]
  split
  · exact reliable_writeThrough ho offered
  · rfl

theorem reliable_write (ho : o.device.Reliable) (offered : List Int8) :
    (o.write offered).1 = .ok () := by
  cases hcapacity : o.capacity with
  | none =>
      simp only [write, hcapacity]
      exact reliable_writeThrough ho offered
  | some capacity =>
      have hspilled := reliable_spill ho
      rcases write_cases hcapacity offered with hw | ⟨problem, hfailed, _⟩ | ⟨_, hw⟩ | ⟨_, hw⟩
      · rw [hw]
      · cases hspilled.symm.trans hfailed
      · rw [hw]
        exact reliable_place ((spill_accepted hcapacity hspilled).1.reliable ho) _ _
      · rw [hw]
        exact reliable_place ho _ _

theorem reliable_flush (ho : o.device.Reliable) : o.flush.1 = .ok () := by
  have hflush {d : Device} (hd : d.Reliable) : d.flush = .ok () := by
    rw [Device.flush, hd.flushProblem_eq]
  simp only [flush]
  cases hcapacity : o.capacity with
  | none => exact hflush ho
  | some capacity =>
      have hspilled := reliable_spill ho
      have hafter := (spill_accepted hcapacity hspilled).1.reliable ho
      cases hspill : o.spill with
      | mk result p =>
          rw [hspill] at hspilled hafter
          cases hspilled
          exact hflush hafter

end Output

end IqTransmit
