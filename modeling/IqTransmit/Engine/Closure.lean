import IqTransmit.Engine.File

/-! Drain closures that stand alone, and a file engine that runs against one. -/

namespace IqTransmit

/-- A drain closure that answers by the number of its calls. -/
structure Closure where
  answer : Nat → List Int8 → Pulled
  calls : Nat := 0

namespace Closure

def pull (dest : List Int8) : EStateM Fault Closure Pulled := fun c =>
  .ok (c.answer c.calls dest) { c with calls := c.calls + 1 }

/-- What a scripted closure does after its script. -/
inductive Ending where
  | terminate
  | idle
  | crash
  deriving DecidableEq, Repr

/-- Copies bytes over the start of a buffer, as far as they fit. -/
def overlay (bytes buffer : List Int8) : List Int8 :=
  bytes.take buffer.length ++ buffer.drop bytes.length

/-- The closure that lays one entry of a script after another over its buffer. -/
def ofScript (script : Array (List Int8)) (ending : Ending) : Closure where
  answer call buffer :=
    match script[call]? with
    | some bytes => .delivered ⟨.proceed, overlay bytes buffer⟩
    | none =>
        match ending with
        | .terminate => .delivered ⟨.terminate, buffer⟩
        | .idle => .delivered ⟨.proceed, buffer⟩
        | .crash => .crashed

end Closure

namespace FileEngine

/-- Lets the worker take `count` steps, or fewer if it is at rest or `done` holds when it is about
to look for a stop. -/
def runAgainst (done : Closure → Bool) : Nat → FileEngine → Closure → FileEngine × Closure
  | 0, e, c => (e, c)
  | count + 1, e, c =>
      let paused := match e.worker with
        | some (.busy (.look _)) => done c
        | _ => e.isAtRest
      if paused then (e, c)
      else
        match e.advance.run Closure.pull c with
        | .ok ((), e) c => runAgainst done count e c
        | .error _ c => (e, c)

end FileEngine

end IqTransmit
