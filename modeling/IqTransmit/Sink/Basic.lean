import IqTransmit.Cs8.Converter
import IqTransmit.Sink.Config
import IqTransmit.Sink.Feed

/-!
A transmit sink joins a producer of samples to a transfer engine. Its fill side converts samples
into a scratch slot and queues the slot once it is full; the engine drains the queue. Here are
its state, its construction, and the calls that never wait.
-/

namespace IqTransmit

/-- Where a sink is in its life. -/
inductive Phase where
  | idle
  | streaming
  | stopping
  | stopped
  deriving DecidableEq, Repr

/-- A sink over an engine of type `E`. The first `fillOffset` bytes of the scratch slot are
samples that are not queued yet. -/
structure TransmitSink (E : Type) where
  engine : Option E
  feed : Feed
  converter : Cs8.Converter
  scratch : Slot
  fillOffset : Nat
  phase : Phase
  config : SinkConfig

/-- Why a call of the fill side ends without a result: a broken promise, a wait that nothing
ends, or an error of the sink. -/
inductive Halt where
  | fault (fault : Fault)
  | waiting
  | failed (error : SinkError)
  deriving DecidableEq, Repr

namespace TransmitSink

variable {E : Type}

def report (sink : TransmitSink E) (notice : Notice) : TransmitSink E :=
  { sink with feed := sink.feed.report notice }

/-- A sink with an empty ring and an empty scratch slot; the sizes are reported if they are not
the usual ones. -/
def make (config : SinkConfig) (engine : Option E) : Except Halt (TransmitSink E) :=
  match config.validate with
  | .error error => .error (.failed error)
  | .ok () =>
      match SlotRing.make config.bufferCount config.slotSize with
      | .error fault => .error (.fault fault)
      | .ok ring =>
          let sink : TransmitSink E :=
            { engine
              feed := { ring }
              converter := .detect
              scratch := List.replicate config.slotSize 0
              fillOffset := 0
              phase := .idle
              config }
          if config.hasUsualSizes then .ok sink
          else .ok (sink.report (.unusualSizes config.bufferCount config.slotSize))

/-- Replaces the converter by that of a strategy, or by the scalar one if there is none. -/
def withStrategy (sink : TransmitSink E) (strategy : Cs8.Strategy) : TransmitSink E :=
  (Cs8.Converter.noticesOf strategy).foldl report { sink with converter := .ofStrategy strategy }

/-- The number of queued slots. -/
def queued (sink : TransmitSink E) : Nat := sink.feed.ring.len

/-- The queued slots, oldest first. -/
def queue (sink : TransmitSink E) : List Slot := sink.feed.ring.contents

/-- The converted bytes that are not queued yet. -/
def pending (sink : TransmitSink E) : List Int8 := sink.scratch.take sink.fillOffset

/-- Binds an engine and gives back the one before; a sink that streams keeps its own. -/
def bind (sink : TransmitSink E) (engine : E) :
    Except SinkError (Option E) × TransmitSink E :=
  match sink.phase with
  | .streaming | .stopping => (.error (.config .rebind), sink)
  | .idle | .stopped => (.ok sink.engine, { sink with engine := some engine })

/-- One call of a drain closure of the sink. -/
def drain (drainer : Drainer) (dest : List Int8) : EStateM Fault (TransmitSink E) Delivery :=
  fun sink =>
    match Feed.drain drainer dest sink.feed with
    | .error fault feed => .error fault { sink with feed }
    | .ok delivery feed => .ok delivery { sink with feed }

variable [TransferEngine E]

/-- The feed as a start leaves it: not stopping, and empty unless the sink was idle. -/
def feedAtStart (sink : TransmitSink E) : Feed :=
  let ring := if sink.phase = .idle then sink.feed.ring else sink.feed.ring.clear
  { sink.feed with ring, stopping := false }

/-- Starts the engine on the ring. Slots that were queued while idle stay; what is left of an
earlier session, and a partly filled scratch slot, are dropped. -/
def start (sink : TransmitSink E) : Except SinkError Unit × TransmitSink E :=
  match sink.engine with
  | none => (.error .noDevice, sink)
  | some engine =>
      if sink.phase = .streaming then (.ok (), sink.report .alreadyStreaming)
      else
        let transfer := TransferEngine.transferSize engine
        let slot := sink.config.slotSize
        if transfer ≠ slot then (.error (.config (.transferSize slot transfer)), sink)
        else
          let feed := sink.feedAtStart
          match TransferEngine.start engine with
          | (.error problem, engine) =>
              let sink := { sink with engine := some engine, feed, fillOffset := 0 }
              (.error (.hardwareStart problem), sink.report (.startFailed problem))
          | (.ok (), engine) =>
              let sink := { sink with
                engine := some engine, feed, fillOffset := 0, phase := .streaming }
              (.ok (), sink.report (.streamingStarted sink.config.bufferCount slot
                sink.converter.strategy.name))

end TransmitSink

end IqTransmit
