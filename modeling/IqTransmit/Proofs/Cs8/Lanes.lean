import IqTransmit.Cs8.Lanes
import IqTransmit.Proofs.Cs8.Quantize
import IqTransmit.Proofs.Groups

/-!
Vector lanes quantize as single components do. A product is held between -128 and 127 before it is
cut toward zero, so no conversion is out of range and neither of the packs saturates; cutting
keeps the order, so holding before it and after it give one integer. The packs keep the order of
the lanes, so a group is quantized component by component.
-/

namespace IqTransmit.Cs8

open Binary32 (rank_le_rank_iff truncate_le_truncate less_eq_true_iff)

/-! ## The truncating conversion -/

/-- What reaches the truncating conversion in the lane of a component. -/
def heldLane (x : Binary32) : Binary32 :=
  minLane (maxLane (maskOrdered (x.mulNat scale)) lowest) highest

theorem quantizeLane_eq (x : Binary32) : quantizeLane x = truncateLane (heldLane x) := rfl

theorem value_lowest : lowest.value = -128 * 2 ^ 149 := by decide +kernel

theorem value_highest : highest.value = 127 * 2 ^ 149 := by decide +kernel

theorem truncate_lowest : lowest.truncate = -128 := by decide +kernel

theorem truncate_highest : highest.truncate = 127 := by decide +kernel

theorem maskOrdered_of_isNaN {x : Binary32} (h : x.isNaN = true) : maskOrdered x = ⟨0⟩ := by
  simp [maskOrdered, h]

theorem maskOrdered_of_not_isNaN {x : Binary32} (h : x.isNaN = false) : maskOrdered x = x := by
  have hmask : x.bits &&& 0xffffffff = x.bits := UInt32.and_neg_one
  simp only [maskOrdered, h, Bool.false_eq_true, if_false, hmask]

theorem isNaN_maskOrdered (x : Binary32) : (maskOrdered x).isNaN = false := by
  cases h : x.isNaN with
  | true =>
      rw [maskOrdered_of_isNaN h]
      decide
  | false => rw [maskOrdered_of_not_isNaN h, h]

/-- A number that is held between the limits: the lower limit, the upper one, or itself. -/
theorem hold_cases {x : Binary32} (hx : x.isNaN = false) :
    (minLane (maxLane x lowest) highest = lowest ∧ x.rank ≤ lowest.rank) ∨
      (minLane (maxLane x lowest) highest = highest ∧ highest.rank ≤ x.rank) ∨
      (minLane (maxLane x lowest) highest = x ∧ lowest.rank ≤ x.rank ∧ x.rank ≤ highest.rank) := by
  have hlow : lowest.isNaN = false := by decide
  have hhigh : highest.isNaN = false := by decide
  have horder : lowest.rank < highest.rank := by decide
  by_cases hl : lowest.less x = true
  · have hlx := (less_eq_true_iff.mp hl).2.2
    have hmax : maxLane x lowest = x := if_pos hl
    rw [hmax]
    by_cases hh : x.less highest = true
    · have hxh := (less_eq_true_iff.mp hh).2.2
      exact .inr (.inr ⟨if_pos hh, by omega, by omega⟩)
    · have hxh : ¬ x.rank < highest.rank := fun hlt => hh (less_eq_true_iff.mpr ⟨hx, hhigh, hlt⟩)
      exact .inr (.inl ⟨if_neg hh, by omega⟩)
  · have hlx : ¬ lowest.rank < x.rank := fun hlt => hl (less_eq_true_iff.mpr ⟨hlow, hx, hlt⟩)
    have hmax : maxLane x lowest = lowest := if_neg hl
    rw [hmax]
    exact .inl ⟨if_pos (less_eq_true_iff.mpr ⟨hlow, hhigh, horder⟩), by omega⟩

/-- A held lane is a number between the limits. -/
theorem heldLane_between (x : Binary32) :
    (heldLane x).isNaN = false ∧
      lowest.rank ≤ (heldLane x).rank ∧ (heldLane x).rank ≤ highest.rank := by
  have horder : lowest.rank ≤ highest.rank := by decide
  have hmask := isNaN_maskOrdered (x.mulNat scale)
  simp only [heldLane]
  rcases hold_cases hmask with ⟨he, _⟩ | ⟨he, _⟩ | ⟨he, hl, hh⟩
  · rw [he]
    exact ⟨by decide, le_rfl, horder⟩
  · rw [he]
    exact ⟨by decide, horder, le_rfl⟩
  · rw [he]
    exact ⟨hmask, hl, hh⟩

theorem truncate_heldLane_between (x : Binary32) :
    -128 ≤ (heldLane x).truncate ∧ (heldLane x).truncate ≤ 127 := by
  obtain ⟨_, hl, hh⟩ := heldLane_between x
  rw [← truncate_lowest, ← truncate_highest]
  exact ⟨truncate_le_truncate hl, truncate_le_truncate hh⟩

/-- Holding before the cut and after it give one integer. -/
theorem truncate_heldLane {x : Binary32} (hx : (x.mulNat scale).isNaN = false) :
    (heldLane x).truncate = clamp (-128) 127 (x.mulNat scale).truncate := by
  simp only [heldLane, clamp]
  rw [maskOrdered_of_not_isNaN hx]
  rcases hold_cases hx with ⟨he, hl⟩ | ⟨he, hh⟩ | ⟨he, hl, hh⟩
  · have hle := truncate_le_truncate hl
    rw [truncate_lowest] at hle
    rw [he, truncate_lowest]
    omega
  · have hle := truncate_le_truncate hh
    rw [truncate_highest] at hle
    rw [he, truncate_highest]
    omega
  · have hle := truncate_le_truncate hl
    have hge := truncate_le_truncate hh
    rw [truncate_lowest] at hle
    rw [truncate_highest] at hge
    rw [he]
    omega

/-! ## The packs -/

theorem toInt_truncateLane {x : Binary32} (hx : x.isNaN = false) (hl : -128 ≤ x.truncate)
    (hh : x.truncate ≤ 127) : (truncateLane x).toInt = x.truncate := by
  have hin : ¬ (x.isNaN ∨ x.truncate < -2147483648 ∨ 2147483647 < x.truncate) := by
    rw [hx]
    simp only [Bool.false_eq_true, false_or, not_or]
    omega
  rw [truncateLane, if_neg hin]
  exact Int32.toInt_ofInt_of_le (by omega) (by omega)

theorem toInt_saturate16 {x : Int32} (hl : -128 ≤ x.toInt) (hh : x.toInt ≤ 127) :
    (saturate16 x).toInt = x.toInt := by
  rw [saturate16, clamp_of_mem (by omega) (by omega)]
  exact Int16.toInt_ofInt_of_le (by omega) (by omega)

theorem toInt_saturate8 {x : Int16} (hl : -128 ≤ x.toInt) (hh : x.toInt ≤ 127) :
    (saturate8 x).toInt = x.toInt := by
  rw [saturate8, clamp_of_mem hl hh]
  exact Int8.toInt_ofInt_of_le (by omega) (by omega)

/-- Integers that fit a byte pass the conversion and both packs unchanged. -/
theorem pack_truncateLane {x : Binary32} (hx : x.isNaN = false) (hl : -128 ≤ x.truncate)
    (hh : x.truncate ≤ 127) : saturate8 (saturate16 (truncateLane x)) = Int8.ofInt x.truncate := by
  have hlane := toInt_truncateLane hx hl hh
  have hshort := toInt_saturate16 (hlane ▸ hl) (hlane ▸ hh)
  rw [hlane] at hshort
  have hbyte := toInt_saturate8 (hshort ▸ hl) (hshort ▸ hh)
  rw [← Int8.toInt_inj, hbyte, hshort, Int8.toInt_ofInt_of_le (by omega) (by omega)]

/-- A lane with its packs is the quantization of its component. -/
theorem pack_quantizeLane (x : Binary32) :
    saturate8 (saturate16 (quantizeLane x)) = quantize x := by
  obtain ⟨hnan, _, _⟩ := heldLane_between x
  obtain ⟨hl, hh⟩ := truncate_heldLane_between x
  rw [quantizeLane_eq, pack_truncateLane hnan hl hh, quantize]
  cases hx : (x.mulNat scale).isNaN with
  | true =>
      have hheld : heldLane x = ⟨0⟩ := by
        rw [heldLane, maskOrdered_of_isNaN hx]
        decide
      rw [hheld, if_pos rfl]
      decide
  | false => rw [truncate_heldLane hx, if_neg (by simp)]

theorem pack16_pack32 (a b c d : List Int32) :
    pack16 (pack32 a b) (pack32 c d) =
      (a ++ b ++ (c ++ d)).map fun x => saturate8 (saturate16 x) := by
  simp only [pack16, pack32, List.map_append, List.map_map]
  rfl

/-! ## Groups -/

theorem quantizeGroup128_eq_map (xs : List Binary32) :
    quantizeGroup128 xs = (xs.take 16).map quantize := by
  have hsplit : xs.take 16 = xs.take 4 ++ (xs.drop 4).take 4 ++
      ((xs.drop 8).take 4 ++ (xs.drop 12).take 4) := by
    rw [show 16 = 4 + 4 + (4 + 4) from rfl, List.take_add, List.take_add, List.take_add,
      List.drop_drop]
  rw [quantizeGroup128, pack16_pack32, ← List.map_append, ← List.map_append, ← List.map_append,
    ← hsplit, List.map_map]
  exact List.map_congr_left fun x _ => pack_quantizeLane x

theorem quantizeGroup256_eq_map (xs : List Binary32) :
    quantizeGroup256 xs = (xs.take 16).map quantize := by
  have hsplit : xs.take 16 = xs.take 8 ++ (xs.drop 8).take 8 := by
    rw [show 16 = 8 + 8 from rfl, List.take_add]
  simp only [quantizeGroup256]
  rw [pack16_pack32, List.take_append_drop, List.take_append_drop, ← List.map_append, ← hsplit,
    List.map_map]
  exact List.map_congr_left fun x _ => pack_quantizeLane x

/-- What quantizes one group component by component quantizes all whole groups so. -/
theorem quantizeGroups_eq_map {quantizeGroup : List Binary32 → List Int8}
    (h : ∀ xs, quantizeGroup xs = (xs.take groupSize).map quantize) (xs : List Binary32) :
    quantizeGroups quantizeGroup xs =
      (xs.take (xs.length / groupSize * groupSize)).map quantize := by
  have hs : 0 < groupSize := by decide
  have hgroup : ∀ g ∈ groups groupSize xs, quantizeGroup g = g.map quantize := by
    intro g hg
    rw [h, List.take_of_length_le (length_of_mem_groups hs hg).le]
  rw [quantizeGroups, ← flatten_groups hs, List.map_flatten, List.flatMap_def]
  exact congrArg List.flatten (List.map_congr_left hgroup)

end IqTransmit.Cs8
