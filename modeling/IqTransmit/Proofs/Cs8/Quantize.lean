import IqTransmit.Cs8.Quantize
import IqTransmit.Proofs.Binary32.Rounding

/-!
The shape of the quantization. A number is multiplied with one rounding, which keeps the order and the
sign; cutting the product to an integer and holding that to the range of a byte keep the order too. The
range has one integer more below zero than above, so that a number and its negative can differ in no
more than their limits.
-/

namespace IqTransmit.Cs8

open Binary32 (units isRounded_mulNat value_mulNat_le truncate_eq_tdiv natAbs_value)

/-- The units of the number one. -/
def oneUnits : Nat := 2 ^ 149

theorem clamp_le_clamp {low high x y : Int} (h : x ≤ y) : clamp low high x ≤ clamp low high y := by
  simp only [clamp]
  omega

theorem clamp_of_mem {low high x : Int} (hl : low ≤ x) (hh : x ≤ high) :
    clamp low high x = x := by
  simp only [clamp]
  omega

theorem clamp_of_le {low high x : Int} (h : x ≤ low) : clamp low high x = low := by
  simp only [clamp]
  omega

theorem clamp_of_ge {low high x : Int} (hl : low ≤ high) (h : high ≤ x) :
    clamp low high x = high := by
  simp only [clamp]
  omega

theorem quantize_of_isNaN {x : Binary32} (hx : x.isNaN = true) : quantize x = 0 := by
  have hscaled : x.mulNat scale = x := if_pos hx
  rw [quantize, hscaled, if_pos hx]

/-- The byte of a number is the integer part of its product, held to the range of a byte. -/
theorem toInt_quantize {x : Binary32} (hx : x.isNaN = false) :
    (quantize x).toInt = clamp (-128) 127 (x.mulNat scale).truncate := by
  have hscaled := (isRounded_mulNat hx scale).isNaN_eq
  rw [quantize, if_neg (by simp [hscaled]), Int8.toInt_ofInt_of_le]
  · simp only [clamp]
    omega
  · simp only [clamp]
    omega

/-- A greater number has no lesser byte. -/
theorem quantize_le {x y : Binary32} (hx : x.isNaN = false) (hy : y.isNaN = false)
    (h : x.value ≤ y.value) : (quantize x).toInt ≤ (quantize y).toInt := by
  rw [toInt_quantize hx, toInt_quantize hy, truncate_eq_tdiv, truncate_eq_tdiv]
  exact clamp_le_clamp (Int.tdiv_le_tdiv (by decide) (value_mulNat_le hx hy scale h))

/-! ## Signs and limits -/

variable {x : Binary32}

theorem natAbs_truncate (x : Binary32) : x.truncate.natAbs = x.value.natAbs / oneUnits := by
  rw [truncate_eq_tdiv, Int.natAbs_tdiv]
  rfl

theorem truncate_nonneg (h : x.isNegative = false) : 0 ≤ x.truncate := by
  simp only [Binary32.truncate, h, Bool.false_eq_true, if_false]
  omega

theorem truncate_nonpos (h : x.isNegative = true) : x.truncate ≤ 0 := by
  simp only [Binary32.truncate, h, if_true]
  omega

theorem truncate_negate (hx : x.isNaN = false) :
    (x.negate.mulNat scale).truncate = -(x.mulNat scale).truncate := by
  rw [Binary32.mulNat_negate hx, truncate_eq_tdiv, truncate_eq_tdiv,
    Binary32.value_negate (isRounded_mulNat hx scale).isNaN_eq, Int.neg_tdiv]

/-- The product of a number between minus one and one is at most 127. -/
theorem natAbs_product_le (hx : x.isNaN = false) (h : x.value.natAbs ≤ oneUnits) :
    (x.mulNat scale).value.natAbs ≤ 127 * oneUnits := by
  have hheld : Binary32.Representable (127 * oneUnits) :=
    Binary32.representable_of_lt (by decide) (by decide)
  rw [natAbs_value] at h ⊢
  refine (isRounded_mulNat hx scale).units_le_of_representable hheld ?_
  rw [Nat.mul_comm 127]
  exact Nat.mul_le_mul_right scale h

theorem isNegative_of_value_pos (h : 0 < x.value) : x.isNegative = false := by
  by_contra hneg
  rw [Binary32.value, if_pos (eq_true_of_ne_false hneg)] at h
  omega

theorem isNegative_of_value_neg (h : x.value < 0) : x.isNegative = true := by
  by_contra hpos
  rw [Binary32.value, if_neg hpos] at h
  omega

/-- A product below 128 is cut to an integer that a byte can be, and its negative too. -/
theorem natAbs_truncate_lt (h : x.value.natAbs < 128 * oneUnits) : x.truncate.natAbs < 128 := by
  rw [natAbs_truncate]
  exact Nat.div_lt_of_lt_mul (Nat.mul_comm 128 _ ▸ h)

theorem le_natAbs_truncate (h : 128 * oneUnits ≤ x.value.natAbs) : 128 ≤ x.truncate.natAbs := by
  rw [natAbs_truncate]
  exact (Nat.le_div_iff_mul_le (by decide)).mpr h

/-! ## Bytes -/

theorem toInt_quantize_negate (hx : x.isNaN = false) :
    (quantize x.negate).toInt = clamp (-128) 127 (-(x.mulNat scale).truncate) := by
  rw [toInt_quantize (Binary32.isNaN_negate hx), truncate_negate hx]

theorem quantize_nonneg (hx : x.isNaN = false) (h : 0 < x.value) : 0 ≤ (quantize x).toInt := by
  have hsign := truncate_nonneg
    ((isRounded_mulNat hx scale).isNegative_eq.trans (isNegative_of_value_pos h))
  rw [toInt_quantize hx]
  exact clamp_le_clamp hsign

theorem quantize_nonpos (hx : x.isNaN = false) (h : x.value < 0) : (quantize x).toInt ≤ 0 := by
  have hsign := truncate_nonpos
    ((isRounded_mulNat hx scale).isNegative_eq.trans (isNegative_of_value_neg h))
  rw [toInt_quantize hx]
  exact clamp_le_clamp hsign

theorem quantize_negate_of_lt (hx : x.isNaN = false)
    (h : (x.mulNat scale).value.natAbs < 128 * oneUnits) :
    (quantize x.negate).toInt = -(quantize x).toInt := by
  have hcut := natAbs_truncate_lt h
  rw [toInt_quantize hx, toInt_quantize_negate hx, clamp_of_mem (by omega) (by omega),
    clamp_of_mem (by omega) (by omega)]

/-- Where the product has no room the bytes of both signs are the limits. -/
theorem quantize_of_le (hx : x.isNaN = false)
    (h : 128 * oneUnits ≤ (x.mulNat scale).value.natAbs) :
    (quantize x, quantize x.negate) = if x.isNegative then (-128, 127) else (127, -128) := by
  have hrounded := isRounded_mulNat hx scale
  have hcut := le_natAbs_truncate h
  have hbytes {a b : Int8} (ha : clamp (-128) 127 (x.mulNat scale).truncate = a.toInt)
      (hb : clamp (-128) 127 (-(x.mulNat scale).truncate) = b.toInt) :
      (quantize x, quantize x.negate) = (a, b) :=
    Prod.ext (Int8.toInt_inj.mp ((toInt_quantize hx).trans ha))
      (Int8.toInt_inj.mp ((toInt_quantize_negate hx).trans hb))
  cases hsign : x.isNegative with
  | true =>
      have hcut' := truncate_nonpos (hrounded.isNegative_eq.trans hsign)
      exact hbytes (clamp_of_le (by omega)) (clamp_of_ge (by decide) (by omega))
  | false =>
      have hcut' := truncate_nonneg (hrounded.isNegative_eq.trans hsign)
      exact hbytes (clamp_of_ge (by decide) (by omega)) (clamp_of_le (by omega))

/-- Nothing is held back of a number between minus one and one. -/
theorem quantize_of_in_range (hx : x.isNaN = false) (h : x.value.natAbs ≤ oneUnits) :
    (quantize x).toInt.natAbs ≤ 127 ∧ (quantize x).toInt = (x.mulNat scale).truncate := by
  have hcut := natAbs_truncate_lt ((natAbs_product_le hx h).trans_lt (by decide))
  rw [toInt_quantize hx, clamp_of_mem (by omega) (by omega)]
  exact ⟨by omega, rfl⟩

/-- What the byte of a number tells. -/
structure ByteOf (x : Binary32) : Prop where
  /-- The product is the exact one, rounded once to the nearest number. -/
  rounded : Binary32.IsRounded x.isNegative (units x.magnitude * 127) (x.mulNat scale)
  byte_eq : (quantize x).toInt = clamp (-128) 127 ((x.mulNat scale).value.tdiv oneUnits)
  negate : (x.mulNat scale).value.natAbs < 128 * oneUnits →
    (quantize x.negate).toInt = -(quantize x).toInt
  saturated : 128 * oneUnits ≤ (x.mulNat scale).value.natAbs →
    (quantize x, quantize x.negate) = if x.isNegative then (-128, 127) else (127, -128)
  in_range : x.value.natAbs ≤ oneUnits →
    (quantize x).toInt.natAbs ≤ 127 ∧ (quantize x).toInt = (x.mulNat scale).truncate
  nonneg : 0 < x.value → 0 ≤ (quantize x).toInt
  nonpos : x.value < 0 → (quantize x).toInt ≤ 0

theorem byteOf (hx : x.isNaN = false) : ByteOf x where
  rounded := isRounded_mulNat hx scale
  byte_eq := (toInt_quantize hx).trans (congrArg _ (truncate_eq_tdiv _))
  negate := quantize_negate_of_lt hx
  saturated := quantize_of_le hx
  in_range := quantize_of_in_range hx
  nonneg := quantize_nonneg hx
  nonpos := quantize_nonpos hx

/-- Bytes grow with the numbers. The byte of a number has its sign, and the byte of its negative is
the negative byte, unless the product is 128 or more, where the two are the limits. Between minus one
and one nothing is held back, and what is not a number is silent. -/
theorem quantize_shape :
    (∀ (x : Binary32) (b : Int8), quantizeInto [x] [b] = [quantize x]) ∧
      (∀ x y : Binary32, x.isNaN = false → y.isNaN = false → x.value ≤ y.value →
        (quantize x).toInt ≤ (quantize y).toInt) ∧
      (∀ x : Binary32, x.isNaN = false → ByteOf x) ∧
      ∀ x : Binary32, x.isNaN = true → quantize x = 0 :=
  ⟨fun _ _ => rfl, fun _ _ => quantize_le, fun _ => byteOf, fun _ => quantize_of_isNaN⟩

/-- The exact product of the second number is just below 128 and is rounded up to it; that of the
number before it is not. -/
theorem quantize_shape_at_limit :
    (quantize ⟨0x3f810203⟩).toInt ≤ (quantize ⟨0x3f810204⟩).toInt ∧
      (quantize (Binary32.negate ⟨0x3f810203⟩)).toInt = -(quantize ⟨0x3f810203⟩).toInt ∧
      (quantize ⟨0x3f810204⟩, quantize (Binary32.negate ⟨0x3f810204⟩)) = (127, -128) ∧
      quantize ⟨0x7fc00000⟩ = 0 := by
  obtain ⟨_, hmono, hbyte, hnan⟩ := quantize_shape
  exact ⟨hmono _ _ (by decide) (by decide) (by decide +kernel),
    (hbyte _ (by decide)).negate (by decide +kernel),
    (hbyte _ (by decide)).saturated (by decide +kernel), hnan _ (by decide)⟩

end IqTransmit.Cs8
