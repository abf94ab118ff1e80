import IqTransmit.Cs8.Converter
import IqTransmit.Proofs.Cs8.Lanes

/-!
Every converter writes the bytes of the scalar quantization. A block is cut at its last whole
vector group; the part before is quantized by the strategy, the rest one by one, and both give what
single components give, so the cut is not to be seen.
-/

namespace IqTransmit

/-! ## Components -/

@[simp] theorem components_length (samples : List Sample) :
    (components samples).length = 2 * samples.length := by
  induction samples with
  | nil => rfl
  | cons s rest ih =>
      simp only [components, List.flatMap_cons, List.length_append, List.length_cons,
        List.length_nil] at ih ⊢
      omega

theorem components_append (a b : List Sample) :
    components (a ++ b) = components a ++ components b := List.flatMap_append

theorem components_getElem? (samples : List Sample) (i : Nat) :
    (components samples)[2 * i]? = samples[i]?.map Sample.re ∧
      (components samples)[2 * i + 1]? = samples[i]?.map Sample.im := by
  induction samples generalizing i with
  | nil => exact ⟨rfl, rfl⟩
  | cons s rest ih =>
      have hcons : components (s :: rest) = s.re :: s.im :: components rest := rfl
      rw [hcons]
      cases i with
      | zero => exact ⟨rfl, rfl⟩
      | succ i =>
          have htwice : 2 * (i + 1) = 2 * i + 1 + 1 := rfl
          rw [htwice]
          exact ih i

namespace Cs8

/-- The bytes of samples, component by component. -/
def bytesOf (samples : List Sample) : List Int8 := (components samples).map quantize

@[simp] theorem bytesOf_length (samples : List Sample) :
    (bytesOf samples).length = 2 * samples.length := by
  rw [bytesOf, List.length_map, components_length]

theorem bytesOf_append (a b : List Sample) : bytesOf (a ++ b) = bytesOf a ++ bytesOf b := by
  rw [bytesOf, components_append, List.map_append]
  rfl

theorem bytesOf_getElem? {samples : List Sample} {i : Nat} (h : i < samples.length) :
    (bytesOf samples)[2 * i]? = some (quantize samples[i].re) ∧
      (bytesOf samples)[2 * i + 1]? = some (quantize samples[i].im) := by
  obtain ⟨hre, him⟩ := components_getElem? samples i
  rw [bytesOf, List.getElem?_map, List.getElem?_map, hre, him, List.getElem?_eq_getElem h]
  exact ⟨rfl, rfl⟩

/-- Quantizing into an output of the right size overwrites all of it. -/
theorem quantizeInto_eq_map {xs : List Binary32} {output : List Int8}
    (h : output.length = xs.length) : quantizeInto xs output = xs.map quantize := by
  have hdrop : output.drop xs.length = [] := List.drop_of_length_le h.le
  rw [quantizeInto, hdrop, List.append_nil]
  clear hdrop
  induction xs generalizing output with
  | nil => rfl
  | cons x xs ih =>
      cases output with
      | nil => simp at h
      | cons b output =>
          rw [List.zipWith_cons_cons, List.map_cons, ih (by simpa using h)]

namespace Converter

variable (converter : Converter)

/-- Whole groups are quantized component by component, whatever the strategy. -/
theorem quantizeWhole_eq_map {xs : List Binary32} (h : groupSize ∣ xs.length) :
    converter.quantizeWhole xs = xs.map quantize := by
  have hall : xs.take (xs.length / groupSize * groupSize) = xs := by
    rw [Nat.div_mul_cancel h, List.take_length]
  simp only [quantizeWhole]
  cases converter.strategy with
  | sse2 => rw [quantizeGroups_eq_map quantizeGroup128_eq_map, hall]
  | avx => rw [quantizeGroups_eq_map quantizeGroup256_eq_map, hall]
  | scalar => rfl
  | neon => rfl

theorem convert_of_size_ne {samples : List Sample} {outputSize : Nat}
    (h : outputSize ≠ 2 * samples.length) :
    converter.convert samples outputSize = .error .outputSize := by
  simp only [convert, components_length]
  rw [if_neg h]
  rfl

theorem convert_of_size_eq {samples : List Sample} {outputSize : Nat}
    (h : outputSize = 2 * samples.length) :
    converter.convert samples outputSize = .ok (bytesOf samples) := by
  have hsplit : samples.length / (groupSize / 2) * groupSize ≤ (components samples).length := by
    rw [components_length]
    simp only [groupSize]
    omega
  have hgroups : groupSize ∣
      ((components samples).take (samples.length / (groupSize / 2) * groupSize)).length := by
    rw [List.length_take_of_le hsplit]
    exact Nat.dvd_mul_left _ _
  have hwhole := takeExactly_eq_ok_iff.mpr ⟨hsplit, rfl⟩
  have hrest := dropExactly_eq_ok_iff.mpr ⟨hsplit, rfl⟩
  simp only [convert]
  rw [if_pos (by rw [components_length, h])]
  simp only [hwhole, hrest]
  change Except.ok _ = _
  rw [quantizeWhole_eq_map converter hgroups, ← List.map_append, List.take_append_drop, bytesOf]

/-- Every converter, of whatever strategy, does what the scalar one does on every block and every
output: the bytes `2 * i` and `2 * i + 1` are the real and the imaginary part of sample `i`, and
blocks may be cut anywhere. No lane leaves the range of a byte before it is cut to an integer. -/
theorem convert_eq_scalar (samples : List Sample) :
    (∀ outputSize, converter.convert samples outputSize = scalar.convert samples outputSize) ∧
      (∀ output : List Int8, output.length = 2 * samples.length →
        converter.convert samples output.length = .ok (quantizeInto (components samples) output)) ∧
      (∃ bytes, converter.convert samples (2 * samples.length) = .ok bytes ∧
        bytes.length = 2 * samples.length ∧
        ∀ (i : Nat) (h : i < samples.length), bytes[2 * i]? = some (quantize samples[i].re) ∧
          bytes[2 * i + 1]? = some (quantize samples[i].im)) ∧
      (∀ others : List Sample, ∃ first second,
        converter.convert samples (2 * samples.length) = .ok first ∧
        converter.convert others (2 * others.length) = .ok second ∧
        converter.convert (samples ++ others) (2 * (samples ++ others).length) =
          .ok (first ++ second)) ∧
      ∀ x, quantizeLane x = truncateLane (heldLane x) ∧ (heldLane x).isNaN = false ∧
        -128 * 2 ^ 149 ≤ (heldLane x).value ∧ (heldLane x).value ≤ 127 * 2 ^ 149 := by
  refine ⟨?_, ?_, ?_, ?_, ?_⟩
  · intro outputSize
    by_cases h : outputSize = 2 * samples.length
    · rw [convert_of_size_eq converter h, convert_of_size_eq scalar h]
    · rw [convert_of_size_ne converter h, convert_of_size_ne scalar h]
  · intro output h
    rw [convert_of_size_eq converter h, quantizeInto_eq_map (by rw [h, components_length])]
    rfl
  · exact ⟨_, convert_of_size_eq converter rfl, bytesOf_length samples,
      fun _ h => bytesOf_getElem? h⟩
  · intro others
    refine ⟨_, _, convert_of_size_eq converter rfl, convert_of_size_eq converter rfl, ?_⟩
    rw [convert_of_size_eq converter rfl, bytesOf_append]
  · intro x
    obtain ⟨hnan, hl, hh⟩ := heldLane_between x
    refine ⟨quantizeLane_eq x, hnan, ?_, ?_⟩
    · rw [← value_lowest]
      exact (Binary32.rank_le_rank_iff _ _).mp hl
    · rw [← value_highest]
      exact (Binary32.rank_le_rank_iff _ _).mp hh

/-- A group of what is no number and minus infinity, then the sample (1, -1/2) on its own. -/
theorem convert_nine_samples :
    (ofStrategy .avx).strategy = .avx ∧ (ofStrategy .sse2).strategy = .sse2 ∧
      ∀ converter ∈ [ofStrategy .avx, ofStrategy .sse2],
        converter.convert (List.replicate 8 ⟨⟨0x7fc00000⟩, ⟨0xff800000⟩⟩ ++
          [⟨⟨0x3f800000⟩, ⟨0xbf000000⟩⟩]) 18 =
          .ok [0, -128, 0, -128, 0, -128, 0, -128, 0, -128, 0, -128, 0, -128, 0, -128, 127, -63] := by
  refine ⟨rfl, rfl, fun converter _ => ?_⟩
  have h := (convert_eq_scalar converter (List.replicate 8 ⟨⟨0x7fc00000⟩, ⟨0xff800000⟩⟩ ++
    [⟨⟨0x3f800000⟩, ⟨0xbf000000⟩⟩])).2.1 (List.replicate 18 0) rfl
  exact h.trans (by decide +kernel)

end Converter

end Cs8

end IqTransmit
