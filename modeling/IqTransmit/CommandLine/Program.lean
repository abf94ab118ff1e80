import IqTransmit.CommandLine.Arguments
import IqTransmit.Transmission

/-! The program as a function of its arguments and of what the system answers to them. -/

namespace IqTransmit.CommandLine

/-- What the program is to do: end at once with an exit code and lines for the error stream, or
send a file. -/
inductive Plan where
  | exit (code : Nat) (lines : List String)
  | send (options : TransmitOptions) (config : SinkConfig)
  deriving DecidableEq, Repr

def formatOf : String → Option SampleFormat
  | "cf32" => some .cf32
  | "ci16" => some .ci16
  | _ => none

def helpLines : List String :=
  [ "Transmit an IQ file through a HackRF",
    "",
    "Usage: hackrf-tx [OPTIONS] <INPUT>",
    "",
    "Arguments:",
    "  <INPUT>  IQ file to transmit",
    "",
    "Options:",
    "      --format <FORMAT>       Sample format of the input: cf32, ci16 [default: cf32]",
    "  -o, --output <OUTPUT>       Write CS8 to this file instead of transmitting",
    "  -d, --device <DEVICE>       Device: hackrf or hackrf-SERIAL [default: hackrf]",
    "  -c, --freq <FREQ>           Center frequency in MHz [default: 2450]",
    "  -r, --rate <RATE>           Sample rate in samples per second [default: 8000000]",
    "      --if-gain <IF_GAIN>     TX VGA (IF) gain in dB, 0-47 [default: 16]",
    "      --rf-gain <RF_GAIN>     RF amp gain in dB, 0 or 14 [default: 0]",
    "      --bias                  Enable antenna bias power",
    "  -b, --buffers <BUFFERS>     Number of queued transfer buffers [default: 15]",
    "      --slot-size <SLOT_SIZE> Bytes per transfer buffer [default: 262144]",
    "      --stop-timeout-ms <STOP_TIMEOUT_MS>",
    "                              Give up on stop after this many milliseconds " ++
      "(default: wait forever)",
    "  -v, --verbose               Verbose output",
    "      --stats                 Print statistics",
    "  -h, --help                  Print help" ]

/-- The lines that explain a mistake in the arguments. -/
def Refusal.lines : Refusal → List String
  | .help => helpLines
  | .unknown argument => [s!"error: unexpected argument '{argument}' found"]
  | .repeated argument => [s!"error: the argument '{argument}' cannot be used multiple times"]
  | .unexpectedValue argument => [s!"error: unexpected value for '{argument}'"]
  | .missingValue argument =>
      [s!"error: a value is required for '{argument}' but none was supplied"]
  | .badValue argument value => [s!"error: invalid value '{value}' for '{argument}'"]
  | .missingInput => ["error: the required argument '<INPUT>' was not provided"]

/-- The exit code of a refusal: help is no mistake. -/
def Refusal.code : Refusal → Nat
  | .help => 0
  | _ => 2

/-- The run that arguments ask for. The sample format is checked before all else. -/
def Arguments.plan (a : Arguments) : Plan :=
  let usual : SinkConfig := {}
  let name := a.format.getD "cf32"
  match formatOf name with
  | none => .exit 1 [s!"unknown sample format: {name} (use cf32 or ci16)"]
  | some format =>
      let options : TransmitOptions :=
        { input := a.input.getD ""
          format
          output := a.output
          device := a.device.getD "hackrf"
          sampleRate := a.rate.getD 8000000
          printStats := a.stats }
      let config : SinkConfig :=
        { bufferCount := a.buffers.getD usual.bufferCount
          slotSize := a.slotSize.getD usual.slotSize
          stopTimeout := a.stopTimeout.map .ofMilliseconds }
      .send options config

/-- What the program is to do for its arguments. -/
def planOf (arguments : List String) : Plan :=
  match Arguments.ofList arguments with
  | .error refusal => .exit refusal.code refusal.lines
  | .ok a => a.plan

/-- The exit code of a run and its lines for the error stream; `seconds` is the time it took. -/
def outcome (options : TransmitOptions) (seconds : String) (report : Transmission.Report) :
    Nat × List String :=
  let statistics := match options.printStats, report.sent with
    | true, some (samples, stats) =>
        [Transmission.statsLine "done" seconds samples stats]
    | _, _ => []
  match report.result with
  | .ok () => (0, statistics)
  | .error error =>
      let text := error.message
      (1, statistics ++ [s!"error: {text}"])

end IqTransmit.CommandLine
