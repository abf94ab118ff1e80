import IqTransmit.Fault
import IqTransmit.Ring

/-!
Transfer engines and the drain closures that feed them. An engine asks a closure for one
transfer after another on a thread of its own. What a step of an engine asks of the closure is
a finite tree of pulls, so that any closure can answer it and the engine touches nothing else.
-/

namespace IqTransmit

/-- Whether an engine is to send a transfer and go on, or to end. -/
inductive Status where
  | proceed
  | terminate
  deriving DecidableEq, Repr

/-- The answer of a drain closure to one transfer: its status and the buffer it leaves. -/
structure Delivery where
  status : Status
  bytes : List Int8
  deriving DecidableEq, Repr

/-- How a call of a drain closure ends. -/
inductive Pulled where
  | delivered (delivery : Delivery)
  | crashed
  deriving DecidableEq, Repr

/-- What an engine does in one go: pulls of given buffers, then a result and the engine after. -/
inductive Action (E α : Type) where
  | finish (result : α) (engine : E)
  | pull (dest : List Int8) (resume : Pulled → Action E α)

namespace Action

variable {E α σ : Type}

/-- Carries an action out against a drain closure with state `σ`. -/
def run (pull : List Int8 → EStateM Fault σ Pulled) : Action E α → EStateM Fault σ (α × E)
  | .finish result engine, s => .ok (result, engine) s
  | .pull dest resume, s =>
      match pull dest s with
      | .error fault s => .error fault s
      | .ok pulled s => (resume pulled).run pull s

/-- An action followed by a change that pulls nothing. -/
def andThen {β : Type} (after : α → E → β × E) : Action E α → Action E β
  | .finish result engine => .finish (after result engine).1 (after result engine).2
  | .pull dest resume => .pull dest fun pulled => (resume pulled).andThen after

end Action

/-- What a sink needs of an engine. Being asked whether it streams may change an engine, and so
may a failed start or stop. -/
class TransferEngine (E : Type) where
  /-- The bytes of one transfer. -/
  transferSize : E → Nat
  /-- Begins to stream from the drain closure that it is given. -/
  start : E → Except String Unit × E
  /-- Ends streaming and waits for the thread. -/
  stop : E → Action E (Except String Unit)
  /-- Whether the engine streams. -/
  poll : E → Bool × E
  /-- One step of the engine's thread. -/
  advance : E → Action E Unit

end IqTransmit
