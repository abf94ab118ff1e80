import IqTransmit.Duration

/-! The lines of the log: what is reported, how grave it is, and how it reads. -/

namespace IqTransmit

/-- The gravity of a notice. -/
inductive Level where
  | error
  | warn
  | info
  | debug
  deriving DecidableEq, Repr

def Level.name : Level → String
  | error => "ERROR"
  | warn => "WARN"
  | info => "INFO"
  | debug => "DEBUG"

/-- What a sink, its converter or a file engine reports. -/
inductive Notice where
  | strategyUnsupported (strategy : String)
  | unusualSizes (buffers size : Nat)
  | alreadyStreaming
  | startFailed (problem : String)
  | streamingStarted (buffers size : Nat) (converter : String)
  | engineStopped (queued : Nat)
  | stopLate (limit : Duration)
  | streamingStopped (sent underruns deferred : Nat)
  | stopFailed (problem : String)
  | pushDeferred
  | underrun
  | transferMismatch (size slotSize : Nat)
  | outputOpened (path : String)
  | writeFailed (problem : String)
  | abandoned (problem : String)
  deriving DecidableEq, Repr

namespace Notice

def level : Notice → Level
  | startFailed _ | engineStopped _ | stopFailed _ | writeFailed _ | abandoned _ => .error
  | strategyUnsupported _ | alreadyStreaming | stopLate _ => .warn
  | unusualSizes .. | streamingStarted .. | streamingStopped .. | outputOpened _ => .info
  | pushDeferred | underrun | transferMismatch .. => .debug

def text : Notice → String
  | strategyUnsupported strategy => s!"{strategy} not supported on this CPU, using scalar"
  | unusualSizes buffers size => s!"using {buffers} buffers of size {size}"
  | alreadyStreaming => "TX sink already streaming"
  | startFailed problem => s!"failed to start TX streaming: {problem}"
  | streamingStarted buffers size converter =>
      s!"TX streaming started ({buffers} buffers x {size} bytes, {converter} converter)"
  | engineStopped queued => s!"TX engine stopped with {queued} slots queued"
  | stopLate limit =>
      let span := limit.text
      s!"TX stop did not complete within {span}"
  | streamingStopped sent underruns deferred =>
      s!"TX streaming stopped ({sent} slots sent, {underruns} underruns, " ++
        s!"{deferred} deferred pushes)"
  | stopFailed problem => s!"failed to stop TX streaming: {problem}"
  | pushDeferred => "tx overrun: slot push deferred"
  | underrun => "tx underrun"
  | transferMismatch size slotSize =>
      s!"tx transfer of {size} bytes does not match slot size {slotSize}"
  | outputOpened path => s!"writing CS8 to {path}"
  | writeFailed problem => s!"file sink write error: {problem}"
  | abandoned problem => s!"file sink: {problem}"

/-- The whole line of a notice. -/
def line (n : Notice) : String :=
  let level := n.level.name
  let text := n.text
  s!"{level} {text}"

end Notice

end IqTransmit
