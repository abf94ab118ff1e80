/-! The transmit settings of a HackRF radio. -/

namespace IqTransmit

/-- The settings of the radio: rates and frequencies in Hz, gains in dB. -/
structure RadioSettings where
  sampleRate : Nat := 8000000
  centerFrequency : Nat := 2450000000
  vgaGain : Nat := 16
  rfGain : Nat := 0
  biasPower : Bool := false
  deriving DecidableEq, Repr

namespace RadioSettings

def maxSampleRate : Nat := 20000000

def maxVgaGain : Nat := 47

/-- The gain of the one stage of the RF amplifier. -/
def ampGain : Nat := 14

/-- Refuses a sample rate that the radio cannot run at; the error is the rate. -/
def validate (settings : RadioSettings) : Except Nat Unit :=
  if settings.sampleRate = 0 ∨ maxSampleRate < settings.sampleRate then
    .error settings.sampleRate
  else .ok ()

def rateMessage (rate : Nat) : String :=
  s!"HackRF sample rate must be between 1 Hz and 20 MHz (got {rate})"

/-- The VGA gain nearest to a wanted one. -/
def clipVgaGain (gain : Nat) : Nat := min gain maxVgaGain

/-- Whether a wanted RF gain is nearer to the gain of the amplifier than to none. -/
def enablesAmp (gain : Nat) : Bool := decide ((ampGain + 1) / 2 ≤ gain)

end RadioSettings

/-- The serial number that a device name asks for: none for an empty name or `hackrf`, the rest
of a name that begins with `hackrf-`; the error is the name. -/
def serialOfDevice (name : String) : Except String (Option String) :=
  let lead := "hackrf-".toList
  let text := name.toList
  if text = [] ∨ name = "hackrf" then .ok none
  else if lead.isPrefixOf text ∧ lead.length < text.length then
    .ok (some (String.ofList (text.drop lead.length)))
  else .error name

def deviceMessage (name : String) : String :=
  s!"invalid HackRF interface: '{name}' (expected hackrf-SERIAL)"

end IqTransmit
