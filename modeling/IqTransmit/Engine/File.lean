import IqTransmit.Engine.Output
import IqTransmit.Notice
import IqTransmit.Sink.Engine

/-!
An engine that writes transfers to an output. Its worker looks whether a stop was requested,
pulls the next transfer into its buffer, and writes the buffer out; after the last transfer it
flushes. The buffer of the transfer that ends the stream is not written. While the worker lives
it has the writer; an orderly end gives the writer back, any other end loses it. The thread of the
worker is taken to start: a system that refuses it, for which a start fails and the writer is lost,
is left out.
-/

namespace IqTransmit

/-- What a worker does next without its drain closure. The buffer goes from transfer to
transfer. -/
inductive Task where
  | look (buffer : List Int8)
  | write (buffer : List Int8)
  | close
  deriving DecidableEq, Repr

/-- How a worker ended. -/
inductive Outcome where
  | done
  | failed (problem : String)
  | crashed
  deriving DecidableEq, Repr

/-- A worker that has not been joined. -/
inductive Worker where
  | busy (task : Task)
  | pulling (buffer : List Int8)
  | ended (outcome : Outcome)
  deriving DecidableEq, Repr

/-- An engine over an output; its log has the newest notice first. -/
structure FileEngine where
  output : Output
  transferSize : Nat
  hasWriter : Bool := true
  worker : Option Worker := none
  streaming : Bool := false
  stopRequested : Bool := false
  log : List Notice := []

namespace FileEngine

/-- The time of one transfer at a rate in samples per second; none at rate 0. -/
def interval (transferSize rate : Nat) : Option Duration :=
  if rate = 0 then none else some ⟨transferSize / 2 * 1000000000 / rate⟩

/-- Ends the worker over an error: the writer is lost and the engine streams no more. -/
def failRun (e : FileEngine) (problem : String) : FileEngine × Outcome :=
  ({ e with output := e.output.abandon, streaming := false, log := .writeFailed problem :: e.log },
    .failed problem)

/-- Flushes the output at the end of a run. -/
def closeRun (e : FileEngine) : FileEngine × Outcome :=
  match e.output.flush with
  | (.ok (), output) => ({ e with output, streaming := false }, .done)
  | (.error problem, output) => { e with output }.failRun problem

/-- Writes one transfer; an outcome if that ends the run. -/
def writeTransfer (e : FileEngine) (buffer : List Int8) : FileEngine × Option Outcome :=
  match e.output.write buffer with
  | (.ok (), output) => ({ e with output }, none)
  | (.error problem, output) =>
      let (e, outcome) := { e with output }.failRun problem
      (e, some outcome)

/-- What a worker does after its drain closure was called, or that it crashed with it. -/
def afterPull : Pulled → Option Task
  | .delivered ⟨.proceed, buffer⟩ => some (.write buffer)
  | .delivered ⟨.terminate, _⟩ => some .close
  | .crashed => none

/-- A worker that crashes drops the writer and leaves the engine as streaming. -/
def receive (e : FileEngine) (pulled : Pulled) : FileEngine :=
  match afterPull pulled with
  | some task => { e with worker := some (.busy task) }
  | none => { e with output := e.output.abandon, worker := some (.ended .crashed) }

/-- One task of the worker. -/
def perform (e : FileEngine) : Task → FileEngine
  | .look buffer =>
      { e with worker := some (if e.stopRequested then .busy .close else .pulling buffer) }
  | .write buffer =>
      match e.writeTransfer buffer with
      | (e, none) => { e with worker := some (.busy (.look buffer)) }
      | (e, some outcome) => { e with worker := some (.ended outcome) }
  | .close =>
      let (e, outcome) := e.closeRun
      { e with worker := some (.ended outcome) }

/-- One step of the worker. -/
def advance (e : FileEngine) : Action FileEngine Unit :=
  match e.worker with
  | none | some (.ended _) => .finish () e
  | some (.busy task) => .finish () (e.perform task)
  | some (.pulling buffer) => .pull buffer fun pulled => .finish () (e.receive pulled)

/-- Whether the worker has nothing more to do. -/
def isAtRest (e : FileEngine) : Bool :=
  match e.worker with
  | none | some (.ended _) => true
  | some (.busy _) | some (.pulling _) => false

/-- Hands the writer to a new worker with a buffer of zeros. A buffer that is too large for any
store crashes the worker at once. -/
def start (e : FileEngine) : Except String Unit × FileEngine :=
  match e.worker with
  | some _ => (.error "file sink already streaming", e)
  | none =>
      if e.hasWriter then
        let e := { e with hasWriter := false, streaming := true, stopRequested := false }
        if e.transferSize ≤ maxStore then
          let zeros := List.replicate e.transferSize (0 : Int8)
          (.ok (), { e with worker := some (.busy (.look zeros)) })
        else (.ok (), { e with output := e.output.abandon, worker := some (.ended .crashed) })
      else (.error "file sink output lost after a write error", e)

/-- The rest of a run that has been told to stop, from a task on. -/
def finishRun (e : FileEngine) : Task → FileEngine × Outcome
  | .look _ | .close => e.closeRun
  | .write buffer =>
      match e.writeTransfer buffer with
      | (e, none) => e.closeRun
      | (e, some outcome) => (e, outcome)

/-- Takes leave of a worker that has ended. Over a crash the streaming flag stays as it is. -/
def join (e : FileEngine) : Outcome → Action FileEngine (Except String Unit)
  | .done => .finish (.ok ()) { e with worker := none, streaming := false, hasWriter := true }
  | .failed problem =>
      let text := s!"write error: {problem}"
      .finish (.error text) { e with worker := none, streaming := false }
  | .crashed => .finish (.error "file sink thread panicked") { e with worker := none }

/-- Requests a stop and waits for the worker, which still ends the transfer it is at. -/
def stop (e : FileEngine) : Action FileEngine (Except String Unit) :=
  match e.worker with
  | none => .finish (.ok ()) e
  | some worker =>
      let e := { e with stopRequested := true }
      match worker with
      | .ended outcome => e.join outcome
      | .busy task =>
          let (e, outcome) := e.finishRun task
          e.join outcome
      | .pulling buffer => .pull buffer fun pulled =>
          match afterPull pulled with
          | none => { e with output := e.output.abandon }.join .crashed
          | some task =>
              let (e, outcome) := e.finishRun task
              e.join outcome

instance : TransferEngine FileEngine where
  transferSize := FileEngine.transferSize
  start := start
  stop := stop
  poll e := (e.streaming, e)
  advance := advance

/-- Stops a busy engine and takes its writer, which may be lost. -/
def takeWriter (e : FileEngine) : Action FileEngine Bool :=
  e.stop.andThen fun _ e => (e.hasWriter, { e with hasWriter := false })

/-- Stops an engine that is dropped, and reports an error of that. -/
def drop (e : FileEngine) : Action FileEngine Unit :=
  e.stop.andThen fun
    | .ok (), e => ((), e)
    | .error problem, e => ((), { e with log := .abandoned problem :: e.log })

end FileEngine

end IqTransmit
