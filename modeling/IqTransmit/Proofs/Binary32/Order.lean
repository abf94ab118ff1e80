import IqTransmit.Binary32
import Mathlib.Algebra.Group.Int.Defs
import Mathlib.Algebra.Group.Nat.Defs
import Mathlib.Order.Monotone.Basic

/-!
The order of numbers and their values. Patterns without sign grow with the exact values that they
stand for, so the rank of a number orders it as its value does, and cutting off the fraction
keeps that order.
-/

namespace IqTransmit.Binary32

/-! ## Values of magnitudes -/

theorem units_eq (m : Nat) : units m = significand m * 2 ^ exponent m := by
  rw [units, Nat.shiftLeft_eq]

theorem units_of_lt {m : Nat} (h : m < 0x800000) : units m = m := by
  have he : exponent m = 0 := by
    simp only [exponent]
    omega
  rw [units_eq, he, significand, if_pos h, Nat.pow_zero, Nat.mul_one]

/-- The magnitude with exponent field `e + 1` and fraction `f`. -/
theorem units_of_fields {e f : Nat} (hf : f < 0x800000) :
    units ((e + 1) * 0x800000 + f) = (0x800000 + f) * 2 ^ e := by
  have hge : ¬ (e + 1) * 0x800000 + f < 0x800000 := by omega
  have hmod : ((e + 1) * 0x800000 + f) % 0x800000 = f := by omega
  have hexp : exponent ((e + 1) * 0x800000 + f) = e := by
    simp only [exponent]
    omega
  rw [units_eq, hexp, significand, if_neg hge, hmod]

theorem units_lt_succ (m : Nat) : units m < units (m + 1) := by
  rcases Nat.lt_or_ge (m + 1) 0x800000 with hlt | hge
  · rw [units_of_lt hlt, units_of_lt (Nat.lt_of_succ_lt hlt)]
    exact Nat.lt_succ_self m
  · obtain ⟨e, f, hf, hm⟩ : ∃ e f, f < 0x800000 ∧ m + 1 = (e + 1) * 0x800000 + f :=
      ⟨(m + 1) / 0x800000 - 1, (m + 1) % 0x800000, Nat.mod_lt _ (by decide), by omega⟩
    have hpos : 0 < 2 ^ e := Nat.two_pow_pos e
    rw [hm, units_of_fields hf]
    cases f with
    | succ f =>
        have hprev : m = (e + 1) * 0x800000 + f := by omega
        rw [hprev, units_of_fields (Nat.lt_of_succ_lt hf)]
        exact Nat.mul_lt_mul_of_pos_right (by omega) hpos
    | zero =>
        -- the fraction runs over: the last number below a power of two
        cases e with
        | zero =>
            have hprev : m < 0x800000 := by omega
            rw [units_of_lt hprev]
            omega
        | succ e =>
            have hprev : m = (e + 1) * 0x800000 + 0x7fffff := by omega
            rw [hprev, units_of_fields (by decide), Nat.pow_succ, ← Nat.mul_assoc,
              Nat.mul_right_comm]
            exact Nat.mul_lt_mul_of_pos_right (by decide) (Nat.two_pow_pos e)

theorem units_strictMono : StrictMono units := strictMono_nat_of_lt_succ units_lt_succ

@[simp] theorem units_zero : units 0 = 0 := units_of_lt (by decide)

/-! ## Values of numbers -/

/-- The value of a number in units of `2 ^ -149`; infinities stand at `2 ^ 128` and its negative. -/
def value (x : Binary32) : Int :=
  if x.isNegative then -(units x.magnitude : Int) else units x.magnitude

theorem rank_le_rank_iff (x y : Binary32) : x.rank ≤ y.rank ↔ x.value ≤ y.value := by
  have hxy : units x.magnitude ≤ units y.magnitude ↔ x.magnitude ≤ y.magnitude :=
    units_strictMono.le_iff_le
  have hyx : units y.magnitude ≤ units x.magnitude ↔ y.magnitude ≤ x.magnitude :=
    units_strictMono.le_iff_le
  have hx : units x.magnitude ≤ units 0 ↔ x.magnitude ≤ 0 := units_strictMono.le_iff_le
  have hy : units y.magnitude ≤ units 0 ↔ y.magnitude ≤ 0 := units_strictMono.le_iff_le
  rw [units_zero] at hx hy
  simp only [rank, value]
  cases x.isNegative <;> cases y.isNegative <;> simp only [Bool.false_eq_true, if_true, if_false] <;>
    omega

theorem truncate_eq_tdiv (x : Binary32) : x.truncate = x.value.tdiv (2 ^ 149) := by
  have hwhole : ((units x.magnitude >>> 149 : Nat) : Int) =
      (units x.magnitude : Int).tdiv (2 ^ 149) := by
    rw [Nat.shiftRight_eq_div_pow, Int.natCast_ediv, Int.tdiv_eq_ediv_of_nonneg (by omega)]
    rfl
  simp only [truncate, value]
  cases x.isNegative with
  | true => simp only [if_true, Int.neg_tdiv, hwhole]
  | false => simp only [Bool.false_eq_true, if_false, hwhole]

/-- Cutting off the fraction keeps the order. -/
theorem truncate_le_truncate {x y : Binary32} (h : x.rank ≤ y.rank) : x.truncate ≤ y.truncate := by
  rw [truncate_eq_tdiv, truncate_eq_tdiv]
  exact Int.tdiv_le_tdiv (by decide) ((rank_le_rank_iff x y).mp h)

theorem less_eq_true_iff {x y : Binary32} :
    x.less y = true ↔ x.isNaN = false ∧ y.isNaN = false ∧ x.rank < y.rank := by
  simp [less, and_assoc]

end IqTransmit.Binary32
