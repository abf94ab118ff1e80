import IqTransmit.Groups

/-! Slots of silence in a stream of bytes that was sent slot by slot. -/

namespace IqTransmit

/-- Whether all bytes are zero. -/
def isSilent (bytes : List Int8) : Bool := bytes.all (· == 0)

/-- The stream without its silent slots. -/
def withoutSilence (slotSize : Nat) (stream : List Int8) : List Int8 :=
  ((pieces slotSize stream).filter fun slot => !isSilent slot).flatten

/-- Whether the stream is a sequence of whole slots. -/
def isAligned (slotSize : Nat) (stream : List Int8) : Bool := stream.length % slotSize == 0

/-- Whether the stream ends in at least `count` silent slots. -/
def endsInSilence (count slotSize : Nat) (stream : List Int8) : Bool :=
  let size := count * slotSize
  let rest := stream.drop (stream.length - size)
  decide (size ≤ stream.length) && isSilent rest

/-- The number of silent slots in the stream. -/
def silentSlots (slotSize : Nat) (stream : List Int8) : Nat :=
  (groups slotSize stream).countP isSilent

end IqTransmit
