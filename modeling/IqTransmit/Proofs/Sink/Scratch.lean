import IqTransmit.Proofs.Cs8.Converter
import IqTransmit.Proofs.Sink.Calls
import IqTransmit.Sink.Work

/-!
The scratch slot of a sink. Converting a batch into it puts the bytes of the batch behind those that
are pending, and a batch that completes the slot makes all of it pending.
-/

namespace IqTransmit

variable {E : Type}

theorem splice_length {slot : Slot} {start : Nat} {bytes : List Int8}
    (h : start + bytes.length ≤ slot.length) : (splice slot start bytes).length = slot.length := by
  simp only [splice, List.length_append, List.length_take, List.length_drop]
  omega

theorem take_splice {slot : Slot} {start : Nat} {bytes : List Int8}
    (h : start + bytes.length ≤ slot.length) :
    (splice slot start bytes).take (start + bytes.length) = slot.take start ++ bytes := by
  have hlen : (slot.take start ++ bytes).length = start + bytes.length := by
    rw [List.length_append, List.length_take]
    omega
  rw [splice, ← hlen]
  exact List.take_left

namespace TransmitSink

variable {s t : TransmitSink E} {batch : List Sample}

/-- A sink between two calls: a sound ring, a scratch slot of the ring's slot size, and whole
samples in it that do not fill it. -/
structure Sound (s : TransmitSink E) : Prop where
  ring : s.feed.ring.Sound
  scratch_length : s.scratch.length = s.feed.ring.slotSize
  slotSize_even : 2 ∣ s.feed.ring.slotSize
  fillOffset_even : 2 ∣ s.fillOffset
  fillOffset_lt : s.fillOffset < s.feed.ring.slotSize

/-- Another sound ring, of the same slot size, makes no difference. -/
theorem Sound.of_ring (h : s.Sound) (hring : t.feed.ring.Sound)
    (hsize : t.feed.ring.slotSize = s.feed.ring.slotSize) (hscratch : t.scratch = s.scratch)
    (hoffset : t.fillOffset = s.fillOffset) : t.Sound := by
  refine ⟨hring, ?_, ?_, ?_, ?_⟩
  · rw [hscratch, hsize, h.scratch_length]
  · rw [hsize]
    exact h.slotSize_even
  · rw [hoffset]
    exact h.fillOffset_even
  · rw [hoffset, hsize]
    exact h.fillOffset_lt

theorem Sound.withPhase (h : s.Sound) (phase : Phase) : Sound { s with phase } :=
  h.of_ring h.ring rfl rfl rfl

/-- The samples for which the scratch slot still has place. -/
def free (s : TransmitSink E) : Nat := (s.scratch.length - s.fillOffset) / 2

/-- The sink after a batch was converted into its scratch slot. -/
def fill (s : TransmitSink E) (batch : List Sample) : TransmitSink E :=
  { s with
    scratch := splice s.scratch s.fillOffset (Cs8.bytesOf batch)
    fillOffset := s.fillOffset + batch.length * 2 }

/-- The sink after its complete scratch slot was pushed. -/
def pushed (s : TransmitSink E) : TransmitSink E :=
  { s with feed := s.feed.enqueue s.scratch, fillOffset := 0 }

theorem Sound.free_eq (h : s.Sound) : s.fillOffset + s.free * 2 = s.scratch.length := by
  have hs := h.slotSize_even
  have ho := h.fillOffset_even
  have hlt := h.fillOffset_lt
  rw [free, h.scratch_length]
  omega

theorem Sound.free_pos (h : s.Sound) : 0 < s.free := by
  have hfree := h.free_eq
  have hlt := h.fillOffset_lt
  rw [h.scratch_length] at hfree
  omega

theorem Sound.pending_length (h : s.Sound) : s.pending.length = s.fillOffset := by
  have hlt := h.fillOffset_lt
  rw [pending, List.length_take, h.scratch_length]
  omega

theorem Moved.sound (hm : Moved s t) (h : s.Sound) : t.Sound := by
  obtain ⟨_, hflow, _⟩ := hm.drained.flow h.ring
  exact h.of_ring hflow.sound hflow.slotSize_eq hm.scratch_eq hm.fillOffset_eq

theorem Moved.free_eq (hm : Moved s t) : t.free = s.free := by
  rw [free, hm.scratch_eq, hm.fillOffset_eq, free]

/-- The bytes of a batch for which there is place end within the scratch slot. -/
theorem Sound.fits (h : s.Sound) (hb : batch.length ≤ s.free) :
    s.fillOffset + (Cs8.bytesOf batch).length ≤ s.scratch.length := by
  have hfree := h.free_eq
  rw [Cs8.bytesOf_length]
  omega

theorem fill_scratch_length (h : s.Sound) (hb : batch.length ≤ s.free) :
    (s.fill batch).scratch.length = s.scratch.length := splice_length (h.fits hb)

theorem fill_pending (h : s.Sound) (hb : batch.length ≤ s.free) :
    (s.fill batch).pending = s.pending ++ Cs8.bytesOf batch := by
  have hoffset : (s.fill batch).fillOffset = s.fillOffset + (Cs8.bytesOf batch).length := by
    rw [Cs8.bytesOf_length, Nat.mul_comm]
    rfl
  rw [pending, hoffset]
  exact take_splice (h.fits hb)

theorem fill_sound (h : s.Sound) (hb : batch.length < s.free) : (s.fill batch).Sound := by
  have hfree := h.free_eq
  have ho := h.fillOffset_even
  have hlen := h.scratch_length
  refine ⟨h.ring, (fill_scratch_length h hb.le).trans hlen, h.slotSize_even, ?_, ?_⟩
  · simp only [fill]
    omega
  · simp only [fill]
    omega

/-- A batch that completes the scratch slot leaves nothing in it that is not pending. -/
theorem fill_scratch_of_complete (h : s.Sound) (hb : batch.length = s.free) :
    (s.fill batch).scratch = s.pending ++ Cs8.bytesOf batch := by
  have hfull : (s.fill batch).fillOffset = (s.fill batch).scratch.length := by
    rw [fill_scratch_length h hb.le, ← h.free_eq, ← hb]
    rfl
  rw [← fill_pending h hb.le, pending, hfull, List.take_length]

theorem pushed_sound (hring : s.feed.ring.Sound) (hroom : s.feed.ring.hasRoom = true)
    (hlen : s.scratch.length = s.feed.ring.slotSize) (heven : 2 ∣ s.feed.ring.slotSize) :
    s.pushed.Sound :=
  ⟨hring.enqueue hroom, hlen, heven, Nat.dvd_zero 2, hring.slotSize_pos⟩

end TransmitSink

namespace Call

variable {p : Progress E} {batch : List Sample}

theorem checked_of_ok {α : Type} {result : Except Fault α} {a : α} (h : result = .ok a) :
    checked result p = .ok a p := by rw [h]; rfl

theorem convertBatch_of_fits (h : p.sink.Sound) (hb : batch.length ≤ p.sink.free) :
    convertBatch batch p = .ok () { p with sink := p.sink.fill batch } := by
  have hfree := h.free_eq
  have hstop : p.sink.fillOffset + batch.length * 2 ≤ p.sink.scratch.length := by omega
  have hheld : takeExactly (p.sink.fillOffset + batch.length * 2) p.sink.scratch = .ok _ :=
    takeExactly_eq_ok_iff.mpr ⟨hstop, rfl⟩
  have htarget : dropExactly p.sink.fillOffset
      (p.sink.scratch.take (p.sink.fillOffset + batch.length * 2)) = .ok _ :=
    dropExactly_eq_ok_iff.mpr ⟨by rw [List.length_take]; omega, rfl⟩
  have hsize : ((p.sink.scratch.take (p.sink.fillOffset + batch.length * 2)).drop
      p.sink.fillOffset).length = 2 * batch.length := by
    rw [List.length_drop, List.length_take]
    omega
  have hbytes := p.sink.converter.convert_of_size_eq hsize
  simp only [convertBatch]
  rw [bind_of_ok (sink_eq p), bind_of_ok (checked_of_ok hheld), bind_of_ok (checked_of_ok htarget),
    bind_of_ok (checked_of_ok hbytes)]
  rfl

end Call

end IqTransmit
