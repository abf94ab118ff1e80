import IqTransmit.Engine.File
import IqTransmit.Input

/-! Files as inputs and outputs, and what the operating system may answer to opening one. -/

namespace IqTransmit

/-- An error of the operating system. -/
inductive OsError where
  | notFound
  | permissionDenied
  | notDirectory
  | isDirectory
  | noSpace
  | nameTooLong
  | other (text : String)
  deriving DecidableEq, Repr

def OsError.message : OsError → String
  | notFound => "No such file or directory (os error 2)"
  | permissionDenied => "Permission denied (os error 13)"
  | notDirectory => "Not a directory (os error 20)"
  | isDirectory => "Is a directory (os error 21)"
  | noSpace => "No space left on device (os error 28)"
  | nameTooLong => "File name too long (os error 36)"
  | other text => text

namespace Reader

/-- A file that holds `content`. -/
def ofFile (content : List UInt8) : Reader := { rest := content }

/-- A directory can be opened, but reading it fails. -/
def ofDirectory : Reader :=
  { rest := [], script := [.failed OsError.isDirectory.message] }

end Reader

namespace Device

/-- A file that takes all it is given. -/
def file : Device := {}

/-- A device that has no space for a single byte. -/
def full : Device := { room := some 0, problem := some OsError.noSpace.message }

end Device

namespace FileEngine

/-- The bytes that are gathered before a file is written to. -/
def bufferSize : Nat := 1048576

/-- An engine over a newly created file, or the text of the error. -/
def create (path : String) (opened : Except OsError Device) (transferSize : Nat) :
    Except String FileEngine :=
  match opened with
  | .error problem =>
      let text := problem.message
      .error s!"failed to create {path}: {text}"
  | .ok device =>
      .ok { output := { device, capacity := some bufferSize }, transferSize,
            log := [.outputOpened path] }

end FileEngine

end IqTransmit
