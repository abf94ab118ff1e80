import IqTransmit.Proofs.Binary32.Order
import Mathlib.Tactic.Ring

/-!
Rounding to the nearest pattern. A magnitude is right for an exact value if none is nearer, and in a
tie if its pattern is even. There is one such magnitude; it grows with the value, and it stands for the
value itself if any magnitude does. What is computed for products and for scaled integers is right.
-/

namespace IqTransmit.Binary32

/-- How far a magnitude is from `n` units. -/
def distance (n m : Nat) : Nat := ((units m : Int) - n).natAbs

/-- The magnitude nearest to `n` units, in a tie the even one. Infinity is one of them, at `2 ^ 128`,
so that it is the nearest to all that is too great. -/
structure IsNearest (n m : Nat) : Prop where
  le_infinity : m ≤ infinity
  nearer : ∀ other ≤ infinity, other ≠ m →
    distance n m < distance n other ∨ distance n m = distance n other ∧ m % 2 = 0

/-- A value that a magnitude stands for. -/
def Representable (n : Nat) : Prop := ∃ m ≤ infinity, units m = n

/-! ## Nearest magnitudes -/

/-- The nearest magnitude to a greater value is not less. -/
theorem IsNearest.mono {n k m l : Nat} (hm : IsNearest n m) (hl : IsNearest k l) (hle : n ≤ k) :
    m ≤ l := by
  by_contra hlt
  have hlt : l < m := Nat.lt_of_not_le hlt
  have hunits := units_strictMono hlt
  have hfirst := hm.nearer l hl.le_infinity (Nat.ne_of_lt hlt)
  have hsecond := hl.nearer m hm.le_infinity (Nat.ne_of_gt hlt)
  simp only [distance] at hfirst hsecond
  -- only a tie is left; then both are even, and the pattern between them is nearer
  have hnext := hm.nearer (l + 1) (Nat.le_trans hlt hm.le_infinity) (by omega)
  have hlow := units_lt_succ l
  have hhigh : units (l + 1) < units m := units_strictMono (by omega)
  simp only [distance] at hnext
  omega

theorem IsNearest.eq {n m l : Nat} (hm : IsNearest n m) (hl : IsNearest n l) : m = l :=
  Nat.le_antisymm (hm.mono hl le_rfl) (hl.mono hm le_rfl)

/-- A magnitude is the nearest to its own value. -/
theorem isNearest_units {m : Nat} (hm : m ≤ infinity) : IsNearest (units m) m := by
  refine ⟨hm, fun other _ hne => .inl ?_⟩
  have hother : units other ≠ units m := fun he => hne (units_strictMono.injective he)
  simp only [distance]
  omega

/-- A value that a magnitude stands for is kept. -/
theorem IsNearest.units_eq_of_representable {n m : Nat} (h : IsNearest n m)
    (hn : Representable n) : units m = n := by
  obtain ⟨l, hl, rfl⟩ := hn
  rw [h.eq (isNearest_units hl)]

/-- Of two neighbours around a value, the nearer one or the even one is the nearest of all, unless
it is beyond infinity. -/
theorem isNearest_of_neighbours {n low : Nat} (hlow : units low ≤ n) (hhigh : n < units (low + 1)) :
    IsNearest n (min infinity
      (if units low + units (low + 1) < 2 * n ∨
        units low + units (low + 1) = 2 * n ∧ low % 2 = 1 then low + 1 else low)) := by
  generalize hm : (if units low + units (low + 1) < 2 * n ∨
    units low + units (low + 1) = 2 * n ∧ low % 2 = 1 then low + 1 else low) = m
  refine ⟨Nat.min_le_left _ _, fun other hother hne => ?_⟩
  have hbelow : other < low → units other < units low := fun hlt => units_strictMono hlt
  have habove : low + 1 < other → units (low + 1) < units other := fun hlt => units_strictMono hlt
  simp only [distance]
  by_cases hinf : infinity < m
  · have hroom : other < infinity := by omega
    have hless := units_strictMono hroom
    have hmost : units infinity ≤ units low := units_strictMono.monotone (by split at hm <;> omega)
    rw [Nat.min_eq_left (Nat.le_of_lt hinf)]
    omega
  · rw [Nat.min_eq_right (Nat.le_of_not_lt hinf)] at hne ⊢
    have hcases : other < low ∨ other = low ∨ other = low + 1 ∨ low + 1 < other := by omega
    split at hm
    · rcases hcases with hlt | rfl | rfl | hlt
      · have := hbelow hlt
        subst hm
        omega
      · subst hm
        omega
      · exact absurd hm hne
      · have := habove hlt
        subst hm
        omega
    · rcases hcases with hlt | rfl | rfl | hlt
      · have := hbelow hlt
        subst hm
        omega
      · exact absurd hm hne
      · subst hm
        omega
      · have := habove hlt
        subst hm
        omega

/-! ## The computed rounding -/

/-- The magnitude with significand `f` and exponent `e`, where a significand may also run over. -/
theorem units_of_parts {e f : Nat} (hf : f ≤ 0x1000000) (h : e = 0 ∨ 0x800000 ≤ f) :
    units (e * 0x800000 + f) = f * 2 ^ e := by
  rcases Nat.lt_or_ge f 0x800000 with hsmall | hnormal
  · have he : e = 0 := by omega
    rw [he, Nat.zero_mul, Nat.zero_add, units_of_lt hsmall, Nat.pow_zero, Nat.mul_one]
  · rcases Nat.lt_or_eq_of_le hf with hlt | rfl
    · have hparts : e * 0x800000 + f = (e + 1) * 0x800000 + (f - 0x800000) := by omega
      rw [hparts, units_of_fields (by omega), Nat.add_sub_cancel' hnormal]
    · have hparts : e * 0x800000 + 0x1000000 = (e + 1 + 1) * 0x800000 + 0 := by omega
      rw [hparts, units_of_fields (by decide), Nat.pow_succ]
      omega

/-- An integer of 24 bits is shifted into a significand without loss. -/
theorem units_shifted {n k : Nat} (hpos : n ≠ 0) (hn : n < 0x1000000) :
    units ((k - min k (23 - n.log2)) * 0x800000 + n <<< min k (23 - n.log2)) = n * 2 ^ k := by
  have hlog : n.log2 < 24 := (Nat.log2_lt hpos).mpr hn
  have hlow : 2 ^ n.log2 ≤ n := Nat.log2_self_le hpos
  have hhigh : n < 2 ^ (n.log2 + 1) := Nat.lt_log2_self
  have hpow : n * 2 ^ (23 - n.log2) < 0x1000000 := by
    calc n * 2 ^ (23 - n.log2) < 2 ^ (n.log2 + 1) * 2 ^ (23 - n.log2) :=
          Nat.mul_lt_mul_of_pos_right hhigh (Nat.two_pow_pos _)
      _ = 0x1000000 := by
          rw [← Nat.pow_add, show n.log2 + 1 + (23 - n.log2) = 24 by omega]
  have hnormal : 0x800000 ≤ n * 2 ^ (23 - n.log2) := by
    calc 0x800000 = 2 ^ n.log2 * 2 ^ (23 - n.log2) := by
          rw [← Nat.pow_add, show n.log2 + (23 - n.log2) = 23 by omega]
      _ ≤ n * 2 ^ (23 - n.log2) := Nat.mul_le_mul_right _ hlow
  rw [Nat.shiftLeft_eq]
  rcases Nat.le_total k (23 - n.log2) with hk | hk
  · have hle : n * 2 ^ k ≤ n * 2 ^ (23 - n.log2) :=
      Nat.mul_le_mul_left _ (Nat.pow_le_pow_right (by decide) hk)
    rw [Nat.min_eq_left hk, units_of_parts (by omega) (.inl (Nat.sub_self k)), Nat.sub_self,
      Nat.pow_zero, Nat.mul_one]
  · rw [Nat.min_eq_right hk, units_of_parts hpow.le (.inr hnormal), Nat.mul_assoc, ← Nat.pow_add,
      Nat.add_sub_cancel' hk]

/-- The leading 24 bits of an integer that is longer. -/
theorem quotient_bounds {n : Nat} (hn : 0x1000000 ≤ n) :
    0x800000 ≤ n / 2 ^ (n.log2 - 23) ∧ n / 2 ^ (n.log2 - 23) < 0x1000000 := by
  have hpos : n ≠ 0 := by omega
  have hlog : 24 ≤ n.log2 := (Nat.le_log2 hpos).mpr hn
  have hlow : 2 ^ n.log2 ≤ n := Nat.log2_self_le hpos
  have hhigh : n < 2 ^ (n.log2 + 1) := Nat.lt_log2_self
  constructor
  · rw [Nat.le_div_iff_mul_le (Nat.two_pow_pos _)]
    calc 0x800000 * 2 ^ (n.log2 - 23) = 2 ^ n.log2 := by
          rw [show 0x800000 = 2 ^ 23 from rfl, ← Nat.pow_add, Nat.add_sub_cancel' (by omega)]
      _ ≤ n := hlow
  · rw [Nat.div_lt_iff_lt_mul (Nat.two_pow_pos _)]
    calc n < 2 ^ (n.log2 + 1) := hhigh
      _ = 0x1000000 * 2 ^ (n.log2 - 23) := by
          rw [show 0x1000000 = 2 ^ 24 from rfl, ← Nat.pow_add]
          congr 1
          omega

theorem roundShift_eq (n k : Nat) :
    roundShift n k = if 2 ^ k < 2 * (n % 2 ^ k) ∨ 2 * (n % 2 ^ k) = 2 ^ k ∧ n / 2 ^ k % 2 = 1
      then n / 2 ^ k + 1 else n / 2 ^ k := by
  simp only [roundShift, Nat.shiftRight_eq_div_pow, Nat.shiftLeft_eq, Nat.one_mul]

/-- The quotient by a power of two is the nearest significand as its remainder tells. -/
theorem isNearest_roundShift {n t : Nat} (k : Nat) (hlow : 0x800000 ≤ n / 2 ^ t)
    (hhigh : n / 2 ^ t < 0x1000000) :
    IsNearest (n * 2 ^ k) (min infinity ((k + t) * 0x800000 + roundShift n t)) := by
  have hpos : 0 < 2 ^ k := Nat.two_pow_pos k
  have hrest : n % 2 ^ t < 2 ^ t := Nat.mod_lt _ (Nat.two_pow_pos t)
  have hvalue : n * 2 ^ k = n / 2 ^ t * 2 ^ (k + t) + 2 ^ k * (n % 2 ^ t) := by
    calc n * 2 ^ k = 2 ^ k * (2 ^ t * (n / 2 ^ t) + n % 2 ^ t) := by
          rw [Nat.div_add_mod, Nat.mul_comm]
      _ = n / 2 ^ t * 2 ^ (k + t) + 2 ^ k * (n % 2 ^ t) := by rw [Nat.pow_add]; ring
  rw [roundShift_eq]
  generalize n / 2 ^ t = quotient at *
  generalize n % 2 ^ t = rest at *
  have hunits : units ((k + t) * 0x800000 + quotient) = quotient * 2 ^ (k + t) :=
    units_of_parts hhigh.le (.inr hlow)
  have hnext : units ((k + t) * 0x800000 + quotient + 1) =
      quotient * 2 ^ (k + t) + 2 ^ k * 2 ^ t := by
    rw [Nat.add_assoc, units_of_parts hhigh (.inr (Nat.le_succ_of_le hlow)), Nat.succ_mul,
      Nat.pow_add]
  have hless : 2 ^ k * rest < 2 ^ k * 2 ^ t := Nat.mul_lt_mul_of_pos_left hrest hpos
  have htwice : 2 ^ k * (2 * rest) = 2 * (2 ^ k * rest) := Nat.mul_left_comm _ _ _
  have hless_iff : 2 ^ k * 2 ^ t < 2 ^ k * (2 * rest) ↔ 2 ^ t < 2 * rest := Nat.mul_lt_mul_left hpos
  have heq_iff : 2 ^ k * (2 * rest) = 2 ^ k * 2 ^ t ↔ 2 * rest = 2 ^ t :=
    Nat.mul_right_inj (Nat.ne_of_gt hpos)
  -- the middle between the neighbours is half a unit beyond the quotient
  have habove : quotient * 2 ^ (k + t) + (quotient * 2 ^ (k + t) + 2 ^ k * 2 ^ t) <
      2 * (n * 2 ^ k) ↔ 2 ^ t < 2 * rest := by
    rw [← hless_iff]
    omega
  have htie : quotient * 2 ^ (k + t) + (quotient * 2 ^ (k + t) + 2 ^ k * 2 ^ t) =
      2 * (n * 2 ^ k) ↔ 2 * rest = 2 ^ t := by
    rw [← heq_iff]
    omega
  have hparity : ((k + t) * 0x800000 + quotient) % 2 = quotient % 2 := by omega
  have hnearest := @isNearest_of_neighbours (n * 2 ^ k) ((k + t) * 0x800000 + quotient)
    (by omega) (by omega)
  rw [hunits, hnext, hparity] at hnearest
  simp only [habove, htie] at hnearest
  split at hnearest
  · next hup => rwa [if_pos hup, ← Nat.add_assoc]
  · next hdown => rwa [if_neg hdown]

/-- What is computed is the nearest magnitude. -/
theorem isNearest_nearest (n k : Nat) : IsNearest (n * 2 ^ k) (nearest n k) := by
  simp only [nearest]
  split
  · next hzero =>
      rw [hzero, Nat.zero_mul]
      exact units_zero ▸ isNearest_units (Nat.zero_le infinity)
  · next hpos =>
      split
      · next hn =>
          have hunits := units_shifted (k := k) hpos hn
          generalize (k - min k (23 - n.log2)) * 0x800000 + n <<< min k (23 - n.log2) = m at hunits ⊢
          have hnext := units_lt_succ m
          have hnearest := isNearest_of_neighbours hunits.le (hunits ▸ hnext)
          rwa [if_neg (by omega)] at hnearest
      · next hn =>
          obtain ⟨hlow, hhigh⟩ := quotient_bounds (Nat.le_of_not_lt hn)
          exact isNearest_roundShift k hlow hhigh

/-- A multiple of a power of two with at most 24 bits is held, unless it is too great. -/
theorem representable_of_lt {n k : Nat} (hn : n < 0x1000000) (hle : n * 2 ^ k ≤ units infinity) :
    Representable (n * 2 ^ k) := by
  by_cases hpos : n = 0
  · exact ⟨0, Nat.zero_le _, by rw [hpos, Nat.zero_mul, units_zero]⟩
  · have hunits := units_shifted (k := k) hpos hn
    exact ⟨_, units_strictMono.le_iff_le.mp (hunits.trans_le hle), hunits⟩

/-! ## Rounded numbers -/

theorem toNat_ofMagnitude {m : Nat} (negative : Bool) (hm : m ≤ infinity) :
    (ofMagnitude negative m).bits.toNat = if negative then 0x80000000 + m else m := by
  simp only [infinity] at hm
  simp only [ofMagnitude, UInt32.toNat_ofNat']
  split <;> omega

theorem isNegative_ofMagnitude {m : Nat} (negative : Bool) (hm : m ≤ infinity) :
    (ofMagnitude negative m).isNegative = negative := by
  rw [isNegative, toNat_ofMagnitude negative hm]
  simp only [infinity] at hm
  cases negative with
  | true => exact decide_eq_true (Nat.le_add_right _ _)
  | false => exact decide_eq_false (by rw [if_neg Bool.false_ne_true]; omega)

theorem magnitude_ofMagnitude {m : Nat} (negative : Bool) (hm : m ≤ infinity) :
    (ofMagnitude negative m).magnitude = m := by
  rw [magnitude, toNat_ofMagnitude negative hm]
  simp only [infinity] at hm
  split <;> omega

/-- A number with the given sign that is the nearest to `n` units. -/
structure IsRounded (negative : Bool) (n : Nat) (x : Binary32) : Prop where
  isNegative_eq : x.isNegative = negative
  isNaN_eq : x.isNaN = false
  nearest : IsNearest n x.magnitude

theorem isRounded_ofMagnitude {n m : Nat} (negative : Bool) (hm : IsNearest n m) :
    IsRounded negative n (ofMagnitude negative m) := by
  have hmagnitude := magnitude_ofMagnitude negative hm.le_infinity
  refine ⟨isNegative_ofMagnitude negative hm.le_infinity, ?_, hmagnitude.symm ▸ hm⟩
  rw [isNaN, hmagnitude]
  exact decide_eq_false (Nat.not_lt_of_le hm.le_infinity)

theorem mulNat_of_not_isNaN {x : Binary32} (hx : x.isNaN = false) (factor : Nat) :
    x.mulNat factor = ofMagnitude x.isNegative
      (nearest (significand x.magnitude * factor) (exponent x.magnitude)) := by
  rw [mulNat, if_neg (by simp [hx])]

/-- A product is rounded once. -/
theorem isRounded_mulNat {x : Binary32} (hx : x.isNaN = false) (factor : Nat) :
    IsRounded x.isNegative (units x.magnitude * factor) (x.mulNat factor) := by
  have hnearest := isNearest_nearest (significand x.magnitude * factor) (exponent x.magnitude)
  rw [Nat.mul_right_comm, ← units_eq] at hnearest
  rw [mulNat_of_not_isNaN hx]
  exact isRounded_ofMagnitude x.isNegative hnearest

/-- A scaled integer is rounded once. -/
theorem isRounded_ofUnits (value : Int) (exponent : Nat) :
    IsRounded (decide (value < 0)) (value.natAbs * 2 ^ exponent) (ofUnits value exponent) :=
  isRounded_ofMagnitude _ (isNearest_nearest _ _)

namespace IsRounded

variable {negative other : Bool} {n k : Nat} {x y : Binary32}

/-- An exact result that can be held is returned. -/
theorem value_eq (h : IsRounded negative n x) (hn : Representable n) :
    x.value = if negative then -(n : Int) else n := by
  rw [value, h.isNegative_eq, h.nearest.units_eq_of_representable hn]

theorem units_le (hx : IsRounded negative n x) (hy : IsRounded other k y) (hle : n ≤ k) :
    units x.magnitude ≤ units y.magnitude :=
  units_strictMono.monotone (hx.nearest.mono hy.nearest hle)

/-- A value that can be held is not overstepped. -/
theorem units_le_of_representable (h : IsRounded negative n x) (hk : Representable k)
    (hle : n ≤ k) : units x.magnitude ≤ k := by
  obtain ⟨m, hm, rfl⟩ := hk
  exact units_strictMono.monotone (h.nearest.mono (isNearest_units hm) hle)

theorem units_eq_zero (h : IsRounded negative 0 x) : units x.magnitude = 0 :=
  h.nearest.units_eq_of_representable ⟨0, Nat.zero_le _, units_zero⟩

end IsRounded

/-! ## Exact results -/

/-- A number with a value of `n` units. -/
def IsExactly (x : Binary32) (n : Int) : Prop := x.isNaN = false ∧ x.value = n

/-- All that need be known of an operation with `n` units as its exact result: it returns that result
if any number holds it. -/
def Returns (x : Binary32) (n : Int) : Prop := (∃ y : Binary32, y.IsExactly n) → x.IsExactly n

theorem isExactly_ofUnits {value : Int} {exponent : Nat}
    (h : Representable (value.natAbs * 2 ^ exponent)) :
    (ofUnits value exponent).IsExactly (value * 2 ^ exponent) := by
  have hrounded := isRounded_ofUnits value exponent
  refine ⟨hrounded.isNaN_eq, ?_⟩
  rw [hrounded.value_eq h]
  push_cast
  by_cases hneg : value < 0
  · rw [if_pos (decide_eq_true hneg), abs_of_neg hneg, Int.neg_mul, Int.neg_neg]
  · rw [if_neg (by simpa using hneg), abs_of_nonneg (Int.not_lt.mp hneg)]

theorem isExactly_mulNat {x : Binary32} (hx : x.isNaN = false) {factor : Nat}
    (h : Representable (units x.magnitude * factor)) :
    (x.mulNat factor).IsExactly (x.value * factor) := by
  have hrounded := isRounded_mulNat hx factor
  refine ⟨hrounded.isNaN_eq, ?_⟩
  rw [hrounded.value_eq h, value]
  push_cast
  split
  · rw [Int.neg_mul]
  · rfl

theorem natAbs_value (x : Binary32) : x.value.natAbs = units x.magnitude := by
  rw [value]
  split
  · rw [Int.natAbs_neg, Int.natAbs_natCast]
  · rw [Int.natAbs_natCast]

/-! ## Order and signs -/

/-- Rounded products are ordered as the numbers are. -/
theorem value_mulNat_le {x y : Binary32} (hx : x.isNaN = false) (hy : y.isNaN = false)
    (factor : Nat) (h : x.value ≤ y.value) :
    (x.mulNat factor).value ≤ (y.mulNat factor).value := by
  have hfirst := isRounded_mulNat hx factor
  have hsecond := isRounded_mulNat hy factor
  simp only [value] at h
  rw [value, value, hfirst.isNegative_eq, hsecond.isNegative_eq]
  cases hxs : x.isNegative <;> cases hys : y.isNegative <;>
    simp only [hxs, hys, Bool.false_eq_true, if_false, if_true] at h ⊢
  case false.false =>
    have hle := hfirst.units_le hsecond (Nat.mul_le_mul_right factor (by omega))
    omega
  case false.true =>
    -- only zeros of both signs are ordered so
    have hxu : units x.magnitude = 0 := by omega
    have hyu : units y.magnitude = 0 := by omega
    rw [hxu, Nat.zero_mul] at hfirst
    rw [hyu, Nat.zero_mul] at hsecond
    rw [hfirst.units_eq_zero, hsecond.units_eq_zero]
    decide
  case true.false => omega
  case true.true =>
    have hle := hsecond.units_le hfirst (Nat.mul_le_mul_right factor (by omega))
    omega

/-- The number with the other sign. -/
def negate (x : Binary32) : Binary32 := ofMagnitude (!x.isNegative) x.magnitude

theorem magnitude_le_of_not_isNaN {x : Binary32} (hx : x.isNaN = false) :
    x.magnitude ≤ infinity := by
  simp only [isNaN, decide_eq_false_iff_not, Nat.not_lt] at hx
  exact hx

theorem isNegative_negate {x : Binary32} (hx : x.isNaN = false) :
    x.negate.isNegative = !x.isNegative :=
  isNegative_ofMagnitude _ (magnitude_le_of_not_isNaN hx)

theorem magnitude_negate {x : Binary32} (hx : x.isNaN = false) :
    x.negate.magnitude = x.magnitude :=
  magnitude_ofMagnitude _ (magnitude_le_of_not_isNaN hx)

theorem isNaN_negate {x : Binary32} (hx : x.isNaN = false) : x.negate.isNaN = false := by
  rw [isNaN, magnitude_negate hx]
  exact hx

theorem value_negate {x : Binary32} (hx : x.isNaN = false) : x.negate.value = -x.value := by
  rw [value, value, isNegative_negate hx, magnitude_negate hx]
  cases x.isNegative with
  | true => exact (Int.neg_neg _).symm
  | false => rfl

/-- The product with the other sign is the product of the number with the other sign. -/
theorem mulNat_negate {x : Binary32} (hx : x.isNaN = false) (factor : Nat) :
    x.negate.mulNat factor = (x.mulNat factor).negate := by
  have hle := (isNearest_nearest (significand x.magnitude * factor) (exponent x.magnitude)).le_infinity
  rw [mulNat_of_not_isNaN (isNaN_negate hx), isNegative_negate hx, magnitude_negate hx, negate,
    mulNat_of_not_isNaN hx, isNegative_ofMagnitude _ hle, magnitude_ofMagnitude _ hle]

end IqTransmit.Binary32
