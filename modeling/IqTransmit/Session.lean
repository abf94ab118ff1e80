import IqTransmit.Pace
import IqTransmit.Sink.Stop
import IqTransmit.Engine.File

/-!
Sessions of a sink over a file engine, one after another: samples queued ahead, a start, samples
fed in chunks, and a stop.
-/

namespace IqTransmit

/-- What one session sends: samples ahead of the start, samples after it, and the size of the
chunks in which these are fed, all at once if there is none. -/
structure SessionPlan where
  ahead : List Sample := []
  samples : List Sample := []
  chunk : Option Nat := none

/-- The results of the calls of one session, and the fill offset before its stop. -/
structure SessionReport where
  ahead : Except Halt Unit
  start : Except SinkError Unit
  work : Except Halt Unit
  fillOffset : Nat
  stop : Except Halt Unit

namespace Session

abbrev Sink := TransmitSink FileEngine

/-- Makes one call, during which the engine keeps a steady pace. -/
def call {α : Type} (sink : Sink) (interval : Duration) (slots : Nat) (c : Call FileEngine α) :
    Except Halt α × Sink :=
  match c { sink, pauses := enoughPauses interval slots } with
  | .ok a p => (.ok a, p.sink)
  | .error halt p => (.error halt, p.sink)

/-- Lets the engine move until its worker is at rest, at most `count` times. -/
def settle : Nat → Sink → Sink
  | 0, sink => sink
  | count + 1, sink =>
      if (sink.engine.map FileEngine.isAtRest).getD true then sink
      else
        match Call.move .engine { sink } with
        | .ok () p => settle count p.sink
        | .error _ p => p.sink

/-- Feeds chunks one after another until one fails. -/
def feedAll (interval : Duration) : List (List Sample) → Sink → Except Halt Unit × Sink
  | [], sink => (.ok (), sink)
  | chunk :: rest, sink =>
      match call sink interval chunk.length (Call.workAll chunk) with
      | (.ok (), sink) => feedAll interval rest sink
      | (.error halt, sink) => (.error halt, sink)

/-- Runs one session. With `settles` the engine makes that many moves, or comes to rest, between
the start and the first chunk. -/
def run (plan : SessionPlan) (interval : Duration) (settles : Option Nat) (sink : Sink) :
    SessionReport × Sink :=
  let (ahead, sink) := call sink interval plan.ahead.length (Call.workAll plan.ahead)
  let (start, sink) := sink.start
  let started := start matches .ok ()
  let sink := if started then settle (settles.getD 0) sink else sink
  let chunks := match plan.chunk with
    | none => [plan.samples]
    | some size => pieces size plan.samples
  let (work, sink) := if started then feedAll interval chunks sink else (.ok (), sink)
  let fillOffset := sink.fillOffset
  let (stop, sink) := call sink interval sink.queued Call.stop
  ({ ahead, start, work, fillOffset, stop }, sink)

end Session

end IqTransmit
