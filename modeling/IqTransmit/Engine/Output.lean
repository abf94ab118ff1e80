/-!
Outputs of a file engine. A device records what it is given, in portions as large as it likes,
may be interrupted, and may fail once it holds a given number of bytes or when it is flushed.
A buffer may stand before it.
-/

namespace IqTransmit

/-- A medium that bytes are written to. -/
structure Device where
  /-- What it recorded, in portions, the newest first. -/
  portions : List (List Int8) := []
  /-- The number of bytes recorded. -/
  recorded : Nat := 0
  /-- The number of writes that took bytes. -/
  writes : Nat := 0
  /-- The most that a write takes, by the number of writes before it. -/
  portion : Nat → Option Nat := fun _ => none
  /-- How often a write is interrupted before it is done, by the number of writes before it. -/
  interruptions : Nat → Nat := fun _ => 0
  /-- How often the next write is still interrupted. -/
  pending : Nat := 0
  /-- The number of bytes at which it fails. -/
  room : Option Nat := none
  /-- How it then fails; without a text it takes no bytes. -/
  problem : Option String := none
  flushProblem : Option String := none

/-- How one write ends. -/
inductive Written where
  | took (count : Nat)
  | interrupted
  | failed (problem : String)
  deriving DecidableEq, Repr

namespace Device

/-- All bytes recorded, in order. -/
def bytes (d : Device) : List Int8 := d.portions.reverse.flatten

/-- Whether it holds all that it can. -/
def isFull (d : Device) : Bool :=
  match d.room with
  | none => false
  | some room => decide (room ≤ d.recorded)

/-- The bytes that the next write takes of those it is offered. -/
def accepted (d : Device) (offered : List Int8) : List Int8 :=
  let offered := match d.portion d.writes with
    | none => offered
    | some most => offered.take most
  match d.room with
  | none => offered
  | some room => offered.take (room - d.recorded)

def record (d : Device) (taken : List Int8) : Device :=
  { d with
    portions := taken :: d.portions
    recorded := d.recorded + taken.length
    writes := d.writes + 1
    pending := d.interruptions (d.writes + 1) }

/-- One write. -/
def write (d : Device) (offered : List Int8) : Written × Device :=
  if 0 < d.pending then (.interrupted, { d with pending := d.pending - 1 })
  else if d.isFull then
    match d.problem with
    | some problem => (.failed problem, d)
    | none => (.took 0, d)
  else
    let taken := d.accepted offered
    if taken.isEmpty then (.took 0, d) else (.took taken.length, d.record taken)

/-- Writes all bytes, again and again until they are taken. A write that takes none of them is an
error, for which the caller has a text. -/
def writeAll (stalled : String) (d : Device) (offered : List Int8) :
    Except String Unit × Device :=
  match offered with
  | [] => (.ok (), d)
  | b :: rest =>
      match _h : d.write (b :: rest) with
      | (.failed problem, d) => (.error problem, d)
      | (.interrupted, next) => writeAll stalled next (b :: rest)
      | (.took 0, d) => (.error stalled, d)
      | (.took (count + 1), next) => writeAll stalled next (rest.drop count)
termination_by (offered.length, d.pending)
decreasing_by
  · apply Prod.Lex.right
    unfold write at _h
    split at _h
    · cases _h
      simp only
      omega
    · split at _h
      · split at _h <;> simp at _h
      · simp only at _h
        split at _h <;> simp at _h
  · apply Prod.Lex.left
    simp only [List.length_cons, List.length_drop]
    omega

def flush (d : Device) : Except String Unit :=
  match d.flushProblem with
  | none => .ok ()
  | some problem => .error problem

end Device

/-- A device with the buffer before it, if there is one: its capacity, and the portions that it
holds, the newest first. -/
structure Output where
  device : Device
  capacity : Option Nat := none
  portions : List (List Int8) := []
  held : Nat := 0

namespace Output

/-- All bytes recorded by the device. -/
def bytes (o : Output) : List Int8 := o.device.bytes

def hold (o : Output) (offered : List Int8) : Output :=
  { o with portions := offered :: o.portions, held := o.held + offered.length }

/-- Hands the bytes held to the device. What it did not take stays in the buffer. -/
def spill (o : Output) : Except String Unit × Output :=
  let waiting := o.portions.reverse.flatten
  let (result, device) := o.device.writeAll "failed to write the buffered data" waiting
  let left := waiting.drop (device.recorded - o.device.recorded)
  (result, { o with device, portions := [left], held := left.length })

def writeThrough (o : Output) (offered : List Int8) : Except String Unit × Output :=
  let (result, device) := o.device.writeAll "failed to write whole buffer" offered
  (result, { o with device })

/-- Writes all bytes. A buffer keeps what fits, makes room for more by spilling, and lets pass
what is larger than itself. -/
def write (o : Output) (offered : List Int8) : Except String Unit × Output :=
  match o.capacity with
  | none => o.writeThrough offered
  | some capacity =>
      if offered.length < capacity - o.held then (.ok (), o.hold offered)
      else
        let (spilled, o) := if capacity - o.held < offered.length then o.spill else (.ok (), o)
        match spilled with
        | .error problem => (.error problem, o)
        | .ok () =>
            if capacity ≤ offered.length then o.writeThrough offered
            else (.ok (), o.hold offered)

def flush (o : Output) : Except String Unit × Output :=
  match o.capacity with
  | none => (o.device.flush, o)
  | some _ =>
      match o.spill with
      | (.error problem, o) => (.error problem, o)
      | (.ok (), o) => (o.device.flush, o)

/-- Lets go of the device; a buffer still tries to hand over what it holds. -/
def abandon (o : Output) : Output :=
  match o.capacity with
  | none => o
  | some _ => o.spill.2

end Output

end IqTransmit
