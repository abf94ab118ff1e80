import IqTransmit.Binary32
import IqTransmit.Groups

/-! Complex samples and the two input formats that hold them. -/

namespace IqTransmit

/-- A complex sample. -/
structure Sample where
  re : Binary32
  im : Binary32
  deriving DecidableEq, Repr

/-- The components of samples, each real part before its imaginary part. -/
def components (samples : List Sample) : List Binary32 :=
  samples.flatMap fun s => [s.re, s.im]

/-- How an input holds its samples: pairs of binary32 numbers, or pairs of 16-bit integers in
units of `1 / 32768`; both little-endian. -/
inductive SampleFormat where
  | cf32
  | ci16
  deriving DecidableEq, Repr

namespace SampleFormat

def bytesPerSample : SampleFormat → Nat
  | cf32 => 8
  | ci16 => 4

/-- The number that little-endian bytes stand for. -/
def littleEndian : List UInt8 → Nat
  | [] => 0
  | b :: rest => b.toNat + 256 * littleEndian rest

/-- The number with the pattern of four bytes. -/
def float (bytes : List UInt8) : Binary32 := ⟨UInt32.ofNat (littleEndian bytes)⟩

/-- The signed 16-bit integer of two bytes. -/
def int16 (bytes : List UInt8) : Int := (littleEndian bytes : Int).bmod 65536

/-- A 16-bit integer in units of `1 / 32768`, which binary32 holds exactly. -/
def fraction (bytes : List UInt8) : Binary32 := .ofUnits (int16 bytes) 134

/-- The sample of one group of bytes. -/
def decodeOne (format : SampleFormat) (bytes : List UInt8) : Sample :=
  match format with
  | cf32 => ⟨float (bytes.take 4), float (bytes.drop 4)⟩
  | ci16 => ⟨fraction (bytes.take 2), fraction (bytes.drop 2)⟩

/-- The samples of an input; an incomplete one at the end is dropped. -/
def decode (format : SampleFormat) (bytes : List UInt8) : List Sample :=
  (groups format.bytesPerSample bytes).map format.decodeOne

end SampleFormat

end IqTransmit
