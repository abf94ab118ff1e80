/-!
Single-precision numbers as bit patterns, with exact arithmetic on naturals. Every finite
magnitude is a whole multiple of the least positive one, `2 ^ -149`, so a product is an exact
natural in that unit and is rounded once, to the nearest pattern and in a tie to the even one.
-/

namespace IqTransmit

/-- A number in the IEEE 754 binary32 format. -/
structure Binary32 where
  bits : UInt32
  deriving DecidableEq, Repr

namespace Binary32

/-- The pattern without its sign bit. -/
def magnitude (x : Binary32) : Nat := x.bits.toNat % 0x80000000

def isNegative (x : Binary32) : Bool := decide (0x80000000 ≤ x.bits.toNat)

/-- The magnitude of infinity; all greater ones are not numbers. -/
def infinity : Nat := 0x7f800000

def isNaN (x : Binary32) : Bool := decide (infinity < x.magnitude)

def ofMagnitude (negative : Bool) (magnitude : Nat) : Binary32 :=
  ⟨UInt32.ofNat (if negative then 0x80000000 + magnitude else magnitude)⟩

/-- The significand of a magnitude, with the leading bit of a normal number made explicit. -/
def significand (magnitude : Nat) : Nat :=
  if magnitude < 0x800000 then magnitude else 0x800000 + magnitude % 0x800000

/-- The exponent of a magnitude, counted from that of the least positive number. -/
def exponent (magnitude : Nat) : Nat := magnitude / 0x800000 - 1

/-- The value of a magnitude in units of `2 ^ -149`; infinity stands at `2 ^ 128`. -/
def units (magnitude : Nat) : Nat := significand magnitude <<< exponent magnitude

/-- The nearest integer to `n / 2 ^ k`, a tie going to the even one. -/
def roundShift (n k : Nat) : Nat :=
  let quotient := n >>> k
  let unit := 1 <<< k
  let remainder := n % unit
  if unit < 2 * remainder ∨ (2 * remainder = unit ∧ quotient % 2 = 1) then quotient + 1
  else quotient

/-- The magnitude nearest to `n * 2 ^ k` units, a tie going to the even pattern; values beyond
the greatest finite number give infinity. -/
def nearest (n k : Nat) : Nat :=
  if n = 0 then 0
  else if n < 0x1000000 then
    let shift := min k (23 - n.log2)
    min infinity ((k - shift) * 0x800000 + n <<< shift)
  else
    let excess := n.log2 - 23
    min infinity ((k + excess) * 0x800000 + roundShift n excess)

/-- The product with a positive integer, rounded once. -/
def mulNat (x : Binary32) (factor : Nat) : Binary32 :=
  if x.isNaN then x
  else ofMagnitude x.isNegative (nearest (significand x.magnitude * factor) (exponent x.magnitude))

/-- The number nearest to `value * 2 ^ exponent` units. -/
def ofUnits (value : Int) (exponent : Nat) : Binary32 :=
  ofMagnitude (decide (value < 0)) (nearest value.natAbs exponent)

/-- The position of a number in the order of values; both zeros stand at 0. -/
def rank (x : Binary32) : Int := if x.isNegative then -x.magnitude else x.magnitude

/-- Whether `x` is less than `y`; never so if one of them is not a number. -/
def less (x y : Binary32) : Bool := !x.isNaN && !y.isNaN && decide (x.rank < y.rank)

/-- The value with its fraction cut off. -/
def truncate (x : Binary32) : Int :=
  let whole : Nat := units x.magnitude >>> 149
  if x.isNegative then -whole else whole

end Binary32

end IqTransmit
