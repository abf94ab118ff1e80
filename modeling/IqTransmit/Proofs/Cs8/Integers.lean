import IqTransmit.Proofs.Cs8.Converter
import IqTransmit.Proofs.Cs8.Quantize
import IqTransmit.Proofs.Input

/-!
Samples of 16-bit integers. Such an integer, its quotient by 32768 and 127 times that are all held by a
number, so that an arithmetic which returns what can be held rounds at no step. The bytes are quotients
of integers, cut toward zero; none of them is held back by a limit.
-/

namespace IqTransmit

namespace SampleFormat

/-- The signed 16-bit integers of an input, each with its low byte first; an odd byte at the end is
left out. -/
def integers : List UInt8 → List Int
  | low :: high :: rest => (high.toBitVec ++ low.toBitVec).toInt :: integers rest
  | _ => []

theorem int16_eq_toInt (low high : UInt8) :
    int16 [low, high] = (high.toBitVec ++ low.toBitVec).toInt := by
  have hvalue : (high.toBitVec ++ low.toBitVec).toNat = littleEndian [low, high] := by
    rw [BitVec.toNat_append, ← Nat.shiftLeft_add_eq_or_of_lt low.toBitVec.isLt, Nat.shiftLeft_eq]
    simp only [littleEndian, UInt8.toNat_toBitVec]
    omega
  have hsigned := BitVec.toInt_eq_toNat_bmod (high.toBitVec ++ low.toBitVec)
  rw [hvalue] at hsigned
  exact hsigned.symm

theorem integers_between {bytes : List UInt8} {v : Int} (h : v ∈ integers bytes) :
    -32768 ≤ v ∧ v ≤ 32767 := by
  induction bytes using integers.induct with
  | case1 low high rest ih =>
      rcases List.mem_cons.mp h with rfl | h
      · have hlow := BitVec.le_toInt (high.toBitVec ++ low.toBitVec)
        have hhigh := BitVec.toInt_lt (x := high.toBitVec ++ low.toBitVec)
        omega
      · exact ih h
  | case2 => simp_all [integers]

/-- Decoded components are the integers in units of `1 / 32768`, up to an incomplete sample. -/
theorem components_ci16 (bytes : List UInt8) :
    components (ci16.decode bytes) =
      ((integers bytes).take (2 * (bytes.length / 4))).map fun v => .ofUnits v 134 := by
  induction bytes using groups_induction (by decide : 0 < 4) with
  | short bytes hlt =>
      rw [decode, bytesPerSample, groups_of_lt hlt, Nat.div_eq_of_lt hlt]
      rfl
  | step bytes hle ih =>
      rcases bytes with _ | ⟨a, _ | ⟨b, _ | ⟨c, _ | ⟨d, rest⟩⟩⟩⟩
      iterate 4 exact absurd hle (by simp)
      have hdecode : ci16.decode (a :: b :: c :: d :: rest) =
          ⟨fraction [a, b], fraction [c, d]⟩ :: ci16.decode rest := by
        rw [decode, bytesPerSample, groups_of_le (by decide) hle]
        rfl
      have hcount : 2 * ((a :: b :: c :: d :: rest).length / 4) = 2 * (rest.length / 4) + 2 := by
        simp only [List.length_cons]
        omega
      rw [hdecode, hcount]
      simp only [integers, fraction, int16_eq_toInt, List.take_succ_cons, List.map_cons]
      exact congrArg (_ :: _ :: ·) ih

end SampleFormat

namespace Cs8

open Binary32 (ofUnits Representable representable_of_lt isExactly_ofUnits isExactly_mulNat)

/-- What an integer comes to in units of `1 / 32768`, in the way of the single-precision numbers and
in that of the vector lanes. Every result is exact and no limit is met. -/
structure ExactSteps (v : Int) : Prop where
  /-- Conversion, division and multiplication by any arithmetic that returns what can be held. -/
  any_arithmetic : ∀ integer quotient product : Binary32, integer.Returns (v * 2 ^ 149) →
    quotient.Returns (integer.value / 32768) → product.Returns (quotient.value * 127) →
    product.isNaN = false ∧ product.truncate = (127 * v).tdiv 32768
  integer : (ofUnits v 149).IsExactly (v * 2 ^ 149)
  quotient : (ofUnits v 134).IsExactly ((ofUnits v 149).value / 32768)
  product : ((ofUnits v 134).mulNat scale).IsExactly ((ofUnits v 134).value * 127)
  unclamped : clamp (-128) 127 ((ofUnits v 134).mulNat scale).truncate =
    ((ofUnits v 134).mulNat scale).truncate
  held : heldLane (ofUnits v 134) = (ofUnits v 134).mulNat scale
  lane : (quantizeLane (ofUnits v 134)).toInt = ((ofUnits v 134).mulNat scale).truncate
  packed : (saturate16 (quantizeLane (ofUnits v 134))).toInt = (quantizeLane (ofUnits v 134)).toInt ∧
    (saturate8 (saturate16 (quantizeLane (ofUnits v 134)))).toInt =
      (quantizeLane (ofUnits v 134)).toInt

variable {v : Int}

theorem quotient_between (hl : -32768 ≤ v) (hh : v ≤ 32767) :
    -127 ≤ (127 * v).tdiv 32768 ∧ (127 * v).tdiv 32768 ≤ 126 := by
  constructor
  · exact (by decide : (-127 : Int) ≤ (127 * -32768 : Int).tdiv 32768).trans
      (Int.tdiv_le_tdiv (by decide) (by omega))
  · exact (Int.tdiv_le_tdiv (by decide) (by omega : 127 * v ≤ 127 * 32767)).trans (by decide)

theorem representable_of_small {n k : Nat} (hn : n < 0x1000000) (hk : k ≤ 149) :
    Representable (n * 2 ^ k) := by
  apply representable_of_lt hn
  calc n * 2 ^ k ≤ 0x1000000 * 2 ^ 149 :=
        Nat.mul_le_mul hn.le (Nat.pow_le_pow_right (by decide) hk)
    _ ≤ Binary32.units Binary32.infinity := by decide

/-- An integer of 24 bits is held at any scale up to its own. -/
theorem isExactly_of_small {w : Int} {k : Nat} (hw : w.natAbs < 0x1000000) (hk : k ≤ 149) :
    (ofUnits w k).IsExactly (w * 2 ^ k) :=
  isExactly_ofUnits (representable_of_small hw hk)

/-- A product in units of `1 / 32768` is cut as an integer quotient. -/
theorem truncate_of_isExactly {x : Binary32} {w : Int} (h : x.IsExactly (w * 2 ^ 134)) :
    x.truncate = w.tdiv 32768 := by
  have hunit : (2 : Int) ^ 149 = 32768 * 2 ^ 134 := by norm_num
  rw [Binary32.truncate_eq_tdiv, h.2, hunit]
  exact Int.mul_tdiv_mul_of_pos_left _ _ (by decide)

/-- A number strictly between the limits passes them unchanged. -/
theorem hold_of_between {x : Binary32} (hx : x.isNaN = false) (hl : -128 * 2 ^ 149 < x.value)
    (hh : x.value < 127 * 2 ^ 149) : minLane (maxLane x lowest) highest = x := by
  rcases hold_cases hx with ⟨_, hle⟩ | ⟨_, hge⟩ | ⟨he, _, _⟩
  · rw [Binary32.rank_le_rank_iff, value_lowest] at hle
    omega
  · rw [Binary32.rank_le_rank_iff, value_highest] at hge
    omega
  · exact he

theorem isExactly_quotient (hl : -32768 ≤ v) (hh : v ≤ 32767) :
    (ofUnits v 134).IsExactly (v * 2 ^ 134) :=
  isExactly_of_small (by omega) (by decide)

theorem isExactly_product (hl : -32768 ≤ v) (hh : v ≤ 32767) :
    ((ofUnits v 134).mulNat scale).IsExactly (127 * v * 2 ^ 134) := by
  obtain ⟨hnumber, hvalue⟩ := isExactly_quotient hl hh
  have hunits : Binary32.units (ofUnits v 134).magnitude * scale =
      v.natAbs * scale * 2 ^ 134 := by
    rw [← Binary32.natAbs_value, hvalue, Int.natAbs_mul, Nat.mul_right_comm]
    rfl
  have hheld : Representable (Binary32.units (ofUnits v 134).magnitude * scale) := by
    rw [hunits]
    exact representable_of_small (by simp only [scale]; omega) (by decide)
  have hscaled : v * 2 ^ 134 * (scale : Nat) = 127 * v * 2 ^ 134 := by
    simp only [scale]
    push_cast
    ring
  have hproduct := isExactly_mulNat hnumber hheld
  rwa [hvalue, hscaled] at hproduct

/-- The steps of an integer of 16 bits are exact. -/
theorem exactSteps (hl : -32768 ≤ v) (hh : v ≤ 32767) : ExactSteps v := by
  have hinteger : (ofUnits v 149).IsExactly (v * 2 ^ 149) :=
    isExactly_of_small (by omega) (by decide)
  have hquotient := isExactly_quotient hl hh
  have hproduct := isExactly_product hl hh
  have hdivided : v * 2 ^ 149 / 32768 = v * 2 ^ 134 := by
    rw [show (2 : Int) ^ 149 = 2 ^ 134 * 32768 by norm_num, ← Int.mul_assoc]
    exact Int.mul_ediv_cancel _ (by decide)
  have hscaled : v * 2 ^ 134 * 127 = 127 * v * 2 ^ 134 := by ring
  have hcut := truncate_of_isExactly hproduct
  obtain ⟨hlow, hhigh⟩ := quotient_between hl hh
  have hheld : heldLane (ofUnits v 134) = (ofUnits v 134).mulNat scale := by
    rw [heldLane, maskOrdered_of_not_isNaN hproduct.1]
    apply hold_of_between hproduct.1
    · rw [hproduct.2]
      omega
    · rw [hproduct.2]
      omega
  have hlane : (quantizeLane (ofUnits v 134)).toInt = ((ofUnits v 134).mulNat scale).truncate := by
    rw [quantizeLane_eq, hheld]
    exact toInt_truncateLane hproduct.1 (by omega) (by omega)
  have hshort := toInt_saturate16 (x := quantizeLane (ofUnits v 134)) (by omega) (by omega)
  constructor
  case any_arithmetic =>
    intro integer quotient product hfirst hsecond hthird
    rw [(hfirst ⟨_, hinteger⟩).2, hdivided] at hsecond
    rw [(hsecond ⟨_, hquotient⟩).2, hscaled] at hthird
    have hlast := hthird ⟨_, hproduct⟩
    exact ⟨hlast.1, truncate_of_isExactly hlast⟩
  case integer => exact hinteger
  case quotient => rwa [hinteger.2, hdivided]
  case product => rwa [hquotient.2, hscaled]
  case unclamped => exact clamp_of_mem (by omega) (by omega)
  case held => exact hheld
  case lane => exact hlane
  case packed =>
    have hbyte := toInt_saturate8 (x := saturate16 (quantizeLane (ofUnits v 134)))
      (by omega) (by omega)
    exact ⟨hshort, hbyte.trans hshort⟩

/-- The byte of an integer in units of `1 / 32768`. -/
structure IntegerByte (v : Int) (byte : Int8) : Prop where
  byte_eq : byte.toInt = (127 * v).tdiv 32768
  between : -127 ≤ byte.toInt ∧ byte.toInt ≤ 126
  nonneg : 0 ≤ v → 0 ≤ byte.toInt
  nonpos : v ≤ 0 → byte.toInt ≤ 0
  steps : ExactSteps v

theorem integerByte (hl : -32768 ≤ v) (hh : v ≤ 32767) :
    IntegerByte v (quantize (ofUnits v 134)) := by
  have hproduct := isExactly_product hl hh
  have hbetween := quotient_between hl hh
  have hbyte : (quantize (ofUnits v 134)).toInt = (127 * v).tdiv 32768 := by
    rw [toInt_quantize (isExactly_quotient hl hh).1, truncate_of_isExactly hproduct]
    exact clamp_of_mem (by omega) (by omega)
  constructor
  case byte_eq => exact hbyte
  case between => rwa [hbyte]
  case nonneg =>
    intro h
    rw [hbyte]
    exact Int.tdiv_nonneg (by omega) (by decide)
  case nonpos =>
    intro h
    rw [hbyte]
    exact Int.tdiv_le_tdiv (by decide) (by omega : 127 * v ≤ 0)
  case steps => exact exactSteps hl hh

namespace Converter

open SampleFormat (ci16 integers)

/-- The bytes of an input of 16-bit integers, whatever the strategy: one for each integer of a whole
sample, which is 127 times the integer divided by 32768 and cut toward zero, without any rounding or
saturation on the way. -/
theorem convert_integers (converter : Converter) (bytes : List UInt8) :
    ∃ out, converter.convert (ci16.decode bytes) (2 * (bytes.length / 4)) = .ok out ∧
      out.length = 2 * (bytes.length / 4) ∧
      (∀ (j : Nat) (byte : Int8), out[j]? = some byte →
        ∃ v, (integers bytes)[j]? = some v ∧ IntegerByte v byte) ∧
      ∀ (i j : Nat) (a b : Int8) (v w : Int), out[i]? = some a → out[j]? = some b →
        (integers bytes)[i]? = some v → (integers bytes)[j]? = some w → v ≤ w →
        a.toInt ≤ b.toInt := by
  have hlen : (ci16.decode bytes).length = bytes.length / 4 := ci16.decode_length bytes
  have hconvert := convert_of_size_eq converter (congrArg (2 * ·) hlen.symm)
  have hsize := (bytesOf_length (ci16.decode bytes)).trans (congrArg (2 * ·) hlen)
  have hbyte (j : Nat) (byte : Int8) (h : (bytesOf (ci16.decode bytes))[j]? = some byte) :
      ∃ v, (integers bytes)[j]? = some v ∧ IntegerByte v byte := by
    rw [bytesOf, SampleFormat.components_ci16, List.map_map, List.getElem?_map,
      Option.map_eq_some_iff] at h
    obtain ⟨v, htaken, rfl⟩ := h
    rw [List.getElem?_take, Option.ite_none_right_eq_some] at htaken
    obtain ⟨_, hv⟩ := htaken
    obtain ⟨hl, hh⟩ := SampleFormat.integers_between (List.mem_of_getElem? hv)
    exact ⟨v, hv, integerByte hl hh⟩
  refine ⟨_, hconvert, hsize, hbyte, ?_⟩
  intro i j a b v w ha hb hv hw hle
  obtain ⟨x, hx, hfirst⟩ := hbyte i a ha
  obtain ⟨y, hy, hsecond⟩ := hbyte j b hb
  cases hx.symm.trans hv
  cases hy.symm.trans hw
  rw [hfirst.byte_eq, hsecond.byte_eq]
  exact Int.tdiv_le_tdiv (by decide) (by omega)

/-- The least and the greatest integer, in a sample that an odd byte follows. -/
theorem convert_extreme_integers :
    ∃ out, (ofStrategy .avx).convert (ci16.decode [0x00, 0x80, 0xff, 0x7f, 7]) 2 = .ok out ∧
      (∃ v, (integers [0x00, 0x80, 0xff, 0x7f, 7])[1]? = some v ∧ IntegerByte v 126) ∧
      out = [-127, 126] := by
  obtain ⟨out, hconvert, _, hbyte, _⟩ :=
    convert_integers (ofStrategy .avx) [0x00, 0x80, 0xff, 0x7f, 7]
  have hout : (.ok out : Except Fault (List Int8)) = .ok [-127, 126] :=
    hconvert.symm.trans (by decide +kernel)
  cases hout
  exact ⟨_, hconvert, hbyte 1 126 rfl, rfl⟩

end Converter

end Cs8

end IqTransmit
