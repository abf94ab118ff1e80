import IqTransmit.CommandLine.Program

/-! The program: it asks the system for its two files and leaves all else to `CommandLine`. -/

namespace IqTransmit

/-- An error of the system by its number. -/
def osErrorOf (error : IO.Error) : OsError :=
  match error with
  | .noFileOrDirectory .. => .notFound
  | .permissionDenied .. => .permissionDenied
  | .resourceExhausted .. => .noSpace
  | .invalidArgument _ 36 _ => .nameTooLong
  | .inappropriateType _ code _ => if code = 20 then .notDirectory else .isDirectory
  | other => .other (toString other)

/-- Creates the output file, if one is wanted. -/
def openOutput (path : Option String) : IO (Except OsError (Option IO.FS.Handle)) := do
  match path with
  | none => return .ok none
  | some path =>
      try return .ok (some (← IO.FS.Handle.mk path .write))
      catch error => return .error (osErrorOf error)

/-- Reads the whole input file; a directory is an input that cannot be read. -/
def openInput (path : String) : IO (Except OsError Reader) := do
  try return .ok (.ofFile (← IO.FS.readBinFile path).toList)
  catch error =>
    match osErrorOf error with
    | .isDirectory => return .ok .ofDirectory
    | problem => return .error problem

/-- Writes a stream to the output file. -/
def writeOutput (handle : Option IO.FS.Handle) (stream : Option (List Int8)) :
    IO (Except OsError Unit) := do
  match handle, stream with
  | some handle, some stream =>
      try
        handle.write ⟨(stream.map Int8.toUInt8).toArray⟩
        handle.flush
        return .ok ()
      catch error => return .error (osErrorOf error)
  | _, _ => return .ok ()

/-- Seconds with one decimal. -/
def secondsText (milliseconds : Nat) : String :=
  let whole := milliseconds / 1000
  let tenths := milliseconds % 1000 / 100
  s!"{whole}.{tenths}"

/-- The error of an output that did not take the stream. -/
def outputProblem (problem : OsError) : TransmitError :=
  let text := problem.message
  .sink (.hardwareStop s!"write error: {text}")

/-- Sends a file and gives the exit code. -/
def sendFile (options : TransmitOptions) (config : SinkConfig) : IO UInt32 := do
  let begun ← IO.monoMsNow
  let output ← openOutput options.output
  let input ← openInput options.input
  let size := match input with
    | .ok reader => reader.rest.length
    | .error _ => 0
  let timeline := Transmission.steadyTimeline options config size
  match Transmission.run options config (output.map fun _ => .file) input timeline with
  | .error _ =>
      IO.eprintln "error: the transmission cannot go on"
      return 101
  | .ok report =>
      let stored ← writeOutput (output.toOption.join) report.written
      let report := match report.result, stored with
        | .ok (), .error problem => { report with result := .error (outputProblem problem) }
        | _, _ => report
      let seconds := secondsText ((← IO.monoMsNow) - begun)
      let (code, lines) := CommandLine.outcome options seconds report
      lines.forM IO.eprintln
      return code.toUInt32

end IqTransmit

open IqTransmit in
/-- The program. -/
def main (arguments : List String) : IO UInt32 := do
  match CommandLine.planOf arguments with
  | .exit 0 lines =>
      lines.forM IO.println
      return 0
  | .exit code lines =>
      lines.forM IO.eprintln
      return code.toUInt32
  | .send options config => sendFile options config
