import IqTransmit.Sink.Call

/-!
An engine that does as it is told. It counts its calls and the times it is asked while it
streams; at a given one of these it ends by itself. After any other its thread drains a batch.
-/

namespace IqTransmit

/-- An engine under control. -/
structure Steered where
  transferSize : Nat := 8
  startError : Option String := none
  stopError : Option String := none
  /-- The transfers that it drains after it was asked. -/
  batch : Nat := 0
  /-- The transfers of the batch at hand that are still to come. -/
  owed : Nat := 0
  /-- The number of the look at which it ends by itself; 0 for never. -/
  endsAt : Nat := 0
  streaming : Bool := false
  /-- Whether it holds a drain closure. -/
  attached : Bool := false
  looks : Nat := 0
  starts : Nat := 0
  stops : Nat := 0
  deriving DecidableEq, Repr

namespace Steered

def start (e : Steered) : Except String Unit × Steered :=
  let e := { e with starts := e.starts + 1 }
  match e.startError with
  | some problem => (.error problem, e)
  | none => (.ok (), { e with streaming := true, attached := true })

def stop (e : Steered) : Except String Unit × Steered :=
  let e := { e with stops := e.stops + 1, streaming := false }
  match e.stopError with
  | some problem => (.error problem, e)
  | none => (.ok (), e)

/-- Answers whether it streams; a question put to a streaming engine is counted. -/
def poll (e : Steered) : Bool × Steered :=
  if e.streaming then
    let looks := e.looks + 1
    if looks = e.endsAt then (false, { e with looks, streaming := false })
    else (true, { e with looks, owed := e.batch })
  else (false, e)

/-- Ends by itself, and its batch with it. -/
def halt (e : Steered) : Steered := { e with streaming := false, owed := 0 }

/-- The end of a stream ends the engine. -/
def receive (e : Steered) (status : Status) : Steered :=
  if status = .terminate then e.halt else e

/-- The buffer that it offers for a transfer. -/
def offered (size : Nat) : List Int8 := List.replicate size 0x11

/-- One transfer of a batch, if it streams. -/
def advance (e : Steered) : Action Steered Unit :=
  if e.streaming ∧ e.attached ∧ 0 < e.owed then
    let e := { e with owed := e.owed - 1 }
    .pull (offered e.transferSize) fun
      | .delivered delivery => .finish () (e.receive delivery.status)
      | .crashed => .finish () e.halt
  else .finish () e

instance : TransferEngine Steered where
  transferSize := Steered.transferSize
  start := start
  stop e := .finish e.stop.1 e.stop.2
  poll := poll
  advance := advance

/-- The pauses that it makes of `count` waits. One that drains nothing waits out any limit. -/
def pauses (e : Steered) (limit : Option Duration) (count : Nat) : List Pause :=
  let elapsed := if e.batch = 0 then limit.getD ⟨0⟩ else ⟨0⟩
  List.replicate count { elapsed, moves := List.replicate e.batch .engine }

end Steered

end IqTransmit
