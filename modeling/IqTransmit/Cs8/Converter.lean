import IqTransmit.Cs8.Lanes
import IqTransmit.Fault
import IqTransmit.Notice
import IqTransmit.Sample

/-!
The strategies that convert samples to interleaved bytes, and a converter bound to one. The machine
is an x86-64 with AVX. The code of the NEON strategy, which is for another kind of machine, is left
out: no converter is bound to it here, so that the answer of `quantizeWhole` for it is never asked.
-/

namespace IqTransmit.Cs8

/-- A way to convert. -/
inductive Strategy where
  | scalar
  | sse2
  | avx
  | neon
  deriving DecidableEq, Repr

namespace Strategy

def all : List Strategy := [scalar, sse2, avx, neon]

def name : Strategy → String
  | scalar => "scalar"
  | sse2 => "SSE2 (128-bit)"
  | avx => "AVX (256-bit)"
  | neon => "NEON (128-bit)"

/-- The word that requests and reports use. -/
def key : Strategy → String
  | scalar => "scalar"
  | sse2 => "sse2"
  | avx => "avx"
  | neon => "neon"

/-- Whether an x86-64 machine with AVX runs the strategy. -/
def isSupported : Strategy → Bool
  | scalar | sse2 | avx => true
  | neon => false

/-- The widest strategy that the machine supports. -/
def best : Strategy := ([avx, sse2, neon].find? isSupported).getD scalar

end Strategy

/-- A converter bound to a supported strategy. -/
structure Converter where
  strategy : Strategy
  supported : strategy.isSupported = true := by rfl

namespace Converter

def scalar : Converter := ⟨.scalar, rfl⟩

/-- The fastest converter of the machine. -/
def detect : Converter := ⟨.best, rfl⟩

/-- The converter of a strategy, or the scalar one if the machine lacks it. -/
def ofStrategy (strategy : Strategy) : Converter :=
  if h : strategy.isSupported = true then ⟨strategy, h⟩ else scalar

/-- What a request for a strategy reports. -/
def noticesOf (strategy : Strategy) : List Notice :=
  if strategy.isSupported then [] else [.strategyUnsupported strategy.name]

/-- How the whole groups of a block are quantized. -/
def quantizeWhole (converter : Converter) (xs : List Binary32) : List Int8 :=
  match converter.strategy with
  | .sse2 => quantizeGroups quantizeGroup128 xs
  | .avx => quantizeGroups quantizeGroup256 xs
  | .scalar | .neon => xs.map quantize

/-- Converts samples into an output of `outputSize` bytes: whole groups by the strategy, the
rest one by one. -/
def convert (converter : Converter) (samples : List Sample) (outputSize : Nat) :
    Except Fault (List Int8) := do
  let xs := components samples
  unless outputSize = xs.length do throw .outputSize
  let split := samples.length / (groupSize / 2) * groupSize
  let whole ← takeExactly split xs
  let rest ← dropExactly split xs
  return converter.quantizeWhole whole ++ rest.map quantize

end Converter

end IqTransmit.Cs8
