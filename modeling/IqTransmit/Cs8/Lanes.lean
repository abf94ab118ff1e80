import IqTransmit.Cs8.Quantize
import IqTransmit.Groups

/-!
Quantization of sixteen components at a time with the instructions of a vector unit, lane by
lane: ordered mask, maximum and minimum with the limits, truncating conversion, and two
saturating packs. The unit has lanes of 128 bits or of 256 bits, of which the packs see halves.
-/

namespace IqTransmit.Cs8

/-- The components of one vector group. -/
def groupSize : Nat := 16

/-- The number with all bits cleared if it is not ordered with itself. -/
def maskOrdered (x : Binary32) : Binary32 :=
  ⟨x.bits &&& (if x.isNaN then 0 else 0xffffffff)⟩

/-- The greater operand; the second one if they are equal or unordered. -/
def maxLane (x y : Binary32) : Binary32 := if y.less x then x else y

/-- The lesser operand; the second one if they are equal or unordered. -/
def minLane (x y : Binary32) : Binary32 := if x.less y then x else y

/-- The 32-bit integer of a number cut toward zero, or the least one where that has no room. -/
def truncateLane (x : Binary32) : Int32 :=
  if x.isNaN ∨ x.truncate < -2147483648 ∨ 2147483647 < x.truncate then Int32.minValue
  else Int32.ofInt x.truncate

/-- The patterns of -128 and 127. -/
def lowest : Binary32 := ⟨0xc3000000⟩
def highest : Binary32 := ⟨0x42fe0000⟩

/-- One lane up to the packs. -/
def quantizeLane (x : Binary32) : Int32 :=
  truncateLane (minLane (maxLane (maskOrdered (x.mulNat scale)) lowest) highest)

def saturate16 (x : Int32) : Int16 := Int16.ofInt (clamp (-32768) 32767 x.toInt)

def saturate8 (x : Int16) : Int8 := Int8.ofInt (clamp (-128) 127 x.toInt)

/-- Two vectors of 32-bit lanes narrowed into one of 16-bit lanes. -/
def pack32 (a b : List Int32) : List Int16 := (a ++ b).map saturate16

/-- Two vectors of 16-bit lanes narrowed into one of bytes. -/
def pack16 (a b : List Int16) : List Int8 := (a ++ b).map saturate8

/-- A group in four vectors of four lanes. -/
def quantizeGroup128 (xs : List Binary32) : List Int8 :=
  let a := (xs.take 4).map quantizeLane
  let b := ((xs.drop 4).take 4).map quantizeLane
  let c := ((xs.drop 8).take 4).map quantizeLane
  let d := ((xs.drop 12).take 4).map quantizeLane
  pack16 (pack32 a b) (pack32 c d)

/-- A group in two vectors of eight lanes, narrowed half by half. -/
def quantizeGroup256 (xs : List Binary32) : List Int8 :=
  let first := (xs.take 8).map quantizeLane
  let second := ((xs.drop 8).take 8).map quantizeLane
  pack16 (pack32 (first.take 4) (first.drop 4)) (pack32 (second.take 4) (second.drop 4))

/-- All whole groups of a list of components. -/
def quantizeGroups (quantizeGroup : List Binary32 → List Int8) (xs : List Binary32) : List Int8 :=
  (groups groupSize xs).flatMap quantizeGroup

end IqTransmit.Cs8
