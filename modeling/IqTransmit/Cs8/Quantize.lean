import IqTransmit.Binary32

/-!
The quantization of a component to a signed byte: scaled by 127, cut toward zero, held to the
range of a byte, and 0 for what is not a number.
-/

namespace IqTransmit.Cs8

/-- The byte of full scale. -/
def scale : Nat := 127

/-- The integer nearest to `value` among `low` to `high`. -/
def clamp (low high value : Int) : Int := max low (min high value)

/-- The byte of a component. -/
def quantize (x : Binary32) : Int8 :=
  let scaled := x.mulNat scale
  if scaled.isNaN then 0 else Int8.ofInt (clamp (-128) 127 scaled.truncate)

/-- Quantizes components into the front of `output`; the shorter of the two ends the work. -/
def quantizeInto (xs : List Binary32) (output : List Int8) : List Int8 :=
  (xs.zipWith (fun x _ => quantize x) output) ++ output.drop xs.length

end IqTransmit.Cs8
