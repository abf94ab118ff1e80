import IqTransmit.CommandLine.Numeral
import IqTransmit.Radio
import IqTransmit.Sink.Config

/-!
The arguments of the program: one input file, flags, and options with a value. A value is the
next argument or is attached to its option; short options may be bundled; a double dash ends the
options. Nothing may be given twice. Arguments are read from left to right, and the first request
for help or the first mistake decides.
-/

namespace IqTransmit.CommandLine

/-- An option that takes a value. -/
inductive ValueOption where
  | format
  | output
  | device
  | frequency
  | rate
  | ifGain
  | rfGain
  | buffers
  | slotSize
  | stopTimeout
  deriving DecidableEq, Repr

/-- A flag. -/
inductive Flag where
  | bias
  | verbose
  | stats
  deriving DecidableEq, Repr

/-- What an option's name stands for. -/
inductive Named where
  | option (o : ValueOption)
  | flag (f : Flag)
  | help
  deriving DecidableEq, Repr

/-- Why the arguments do not make up a run. -/
inductive Refusal where
  | help
  | unknown (argument : String)
  | repeated (argument : String)
  | unexpectedValue (argument : String)
  | missingValue (argument : String)
  | badValue (argument value : String)
  | missingInput
  deriving DecidableEq, Repr

/-- The arguments read so far; what was not given is absent. -/
structure Arguments where
  input : Option String := none
  format : Option String := none
  output : Option String := none
  device : Option String := none
  frequency : Option String := none
  rate : Option Nat := none
  ifGain : Option Nat := none
  rfGain : Option Nat := none
  buffers : Option Nat := none
  slotSize : Option Nat := none
  stopTimeout : Option Nat := none
  bias : Bool := false
  verbose : Bool := false
  stats : Bool := false
  deriving DecidableEq, Repr

def longName : String → Option Named
  | "format" => some (.option .format)
  | "output" => some (.option .output)
  | "device" => some (.option .device)
  | "freq" => some (.option .frequency)
  | "rate" => some (.option .rate)
  | "if-gain" => some (.option .ifGain)
  | "rf-gain" => some (.option .rfGain)
  | "buffers" => some (.option .buffers)
  | "slot-size" => some (.option .slotSize)
  | "stop-timeout-ms" => some (.option .stopTimeout)
  | "bias" => some (.flag .bias)
  | "verbose" => some (.flag .verbose)
  | "stats" => some (.flag .stats)
  | "help" => some .help
  | _ => none

def shortName : Char → Option Named
  | 'o' => some (.option .output)
  | 'd' => some (.option .device)
  | 'c' => some (.option .frequency)
  | 'r' => some (.option .rate)
  | 'b' => some (.option .buffers)
  | 'v' => some (.flag .verbose)
  | 'h' => some .help
  | _ => none

namespace Arguments

/-- A value that was not given before and that its option accepts. -/
def once {α : Type} (argument value : String) (before parsed : Option α) :
    Except Refusal (Option α) :=
  if before.isSome then .error (.repeated argument)
  else if parsed.isNone then .error (.badValue argument value)
  else .ok parsed

def maxWord32 : Nat := 0xffffffff

def maxWord64 : Nat := 0xffffffffffffffff

/-- A path may not be empty. -/
def path (value : String) : Option String := if value.isEmpty then none else some value

/-- Stores the value of an option. -/
def set (a : Arguments) (argument value : String) : ValueOption → Except Refusal Arguments
  | .format => return { a with format := ← once argument value a.format (some value) }
  | .output => return { a with output := ← once argument value a.output (path value) }
  | .device => return { a with device := ← once argument value a.device (some value) }
  | .frequency =>
      let parsed := if Numeral.isFloat value then some value else none
      return { a with frequency := ← once argument value a.frequency parsed }
  | .rate =>
      return { a with rate := ← once argument value a.rate (Numeral.bounded maxWord32 value) }
  | .ifGain =>
      return { a with ifGain := ← once argument value a.ifGain (Numeral.bounded maxWord32 value) }
  | .rfGain =>
      return { a with rfGain := ← once argument value a.rfGain (Numeral.bounded maxWord32 value) }
  | .buffers =>
      return { a with
        buffers := ← once argument value a.buffers (Numeral.unsigned maxWord64 value) }
  | .slotSize =>
      return { a with
        slotSize := ← once argument value a.slotSize (Numeral.unsigned maxWord64 value) }
  | .stopTimeout =>
      return { a with
        stopTimeout := ← once argument value a.stopTimeout (Numeral.unsigned maxWord64 value) }

/-- Raises a flag. -/
def raise (a : Arguments) (argument : String) : Flag → Except Refusal Arguments
  | .bias => if a.bias then .error (.repeated argument) else .ok { a with bias := true }
  | .verbose => if a.verbose then .error (.repeated argument) else .ok { a with verbose := true }
  | .stats => if a.stats then .error (.repeated argument) else .ok { a with stats := true }

/-- Stores the input file. -/
def setInput (a : Arguments) (value : String) : Except Refusal Arguments :=
  if a.input.isSome then .error (.unknown value)
  else if value.isEmpty then .error (.badValue "INPUT" value)
  else .ok { a with input := some value }

/-- Whether an argument is an option rather than a value. -/
def looksLikeOption (argument : String) : Bool :=
  match argument.toList with
  | '-' :: _ :: _ => true
  | _ => false

/-- An argument that leaves an option without its value, or nothing. -/
abbrev Step := Except Refusal (Arguments × Option (String × ValueOption))

/-- Reads a long option, without its dashes. -/
def readLong (a : Arguments) (body : List Char) : Step :=
  let name := String.ofList (body.takeWhile (· ≠ '='))
  let argument := s!"--{name}"
  match longName name, body.dropWhile (· ≠ '=') with
  | none, _ => .error (.unknown argument)
  | some .help, [] => .error .help
  | some (.flag f), [] => return (← a.raise argument f, none)
  | some .help, _ :: _ | some (.flag _), _ :: _ => .error (.unexpectedValue argument)
  | some (.option o), [] => .ok (a, some (argument, o))
  | some (.option o), _ :: value => return (← a.set argument (String.ofList value) o, none)

/-- Reads a bundle of short options, without its dash. -/
def readShort (a : Arguments) : List Char → Step
  | [] => .ok (a, none)
  | c :: rest =>
      let argument := s!"-{c}"
      match shortName c, rest with
      | none, _ => .error (.unknown argument)
      | some .help, _ => .error .help
      | some (.flag f), _ => do readShort (← a.raise argument f) rest
      | some (.option o), [] => .ok (a, some (argument, o))
      | some (.option o), '=' :: value =>
          return (← a.set argument (String.ofList value) o, none)
      | some (.option o), value => return (← a.set argument (String.ofList value) o, none)

/-- Reads the arguments behind a double dash. -/
def readPlain : List String → Arguments → Except Refusal Arguments
  | [], a => .ok a
  | argument :: rest, a => do readPlain rest (← a.setInput argument)

/-- Reads all arguments; `waiting` is an option that still lacks its value. -/
def read : List String → Option (String × ValueOption) → Arguments → Except Refusal Arguments
  | [], none, a => .ok a
  | [], some (name, _), _ => .error (.missingValue name)
  | argument :: rest, some (name, o), a =>
      if looksLikeOption argument then .error (.missingValue name)
      else do read rest none (← a.set name argument o)
  | argument :: rest, none, a =>
      match argument.toList with
      | ['-', '-'] => readPlain rest a
      | '-' :: '-' :: body => do
          let (a, waiting) ← a.readLong body
          read rest waiting a
      | '-' :: c :: body => do
          let (a, waiting) ← a.readShort (c :: body)
          read rest waiting a
      | _ => do read rest none (← a.setInput argument)

/-- The arguments of a run, which has an input. -/
def ofList (arguments : List String) : Except Refusal Arguments :=
  match read arguments none {} with
  | .error refusal => .error refusal
  | .ok a => if a.input.isNone then .error .missingInput else .ok a

end Arguments

end IqTransmit.CommandLine
