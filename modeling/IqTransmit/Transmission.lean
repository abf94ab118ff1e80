import IqTransmit.Files
import IqTransmit.Pace
import IqTransmit.Sink.Stop

/-!
Sending a file. A reader thread decodes the input block by block into a bounded channel; the
feeding thread takes the blocks out and works them into a sink; the engine of the sink writes
them to the output. The reader shares nothing with the sink, so its steps stand before the looks
of the feeding thread at the channel, and the moves of the engine wherever the ring is unlocked.
-/

namespace IqTransmit

/-- What to send, and where to. -/
structure TransmitOptions where
  input : String
  format : SampleFormat := .cf32
  output : Option String := none
  device : String := "hackrf"
  sampleRate : Nat := 8000000
  printStats : Bool := false
  deriving DecidableEq, Repr

/-- Why sending a file fails. -/
inductive TransmitError where
  | noOutput (problem : String)
  | noRadio (device : String)
  | sink (error : SinkError)
  | noInput (path : String) (problem : OsError)
  | read (problem : String)
  deriving DecidableEq, Repr

def TransmitError.message : TransmitError → String
  | noOutput problem => problem
  | noRadio device =>
      s!"cannot open '{device}': built without HackRF support " ++
        "(use --output or --features hackrf)"
  | sink error => error.message
  | noInput path problem =>
      let text := problem.message
      s!"failed to open {path}: {text}"
  | read problem => s!"read error: {problem}"

namespace Transmission

/-- The samples of one block. -/
def blockSize : Nat := 65536

/-- The blocks that the channel holds. -/
def channelSize : Nat := 16

/-- The reader thread with the channel that it fills. -/
structure Supply where
  reader : Reader
  format : SampleFormat
  /-- The samples of a block. -/
  blockSize : Nat := blockSize
  /-- A block that is decoded but not in the channel yet. -/
  ready : Option (List Sample) := none
  channel : List (List Sample) := []
  /-- How the thread ended. -/
  ended : Option (Except String Unit) := none

namespace Supply

/-- Puts the next block into the channel if it has room. -/
def send (s : Supply) (block : List Sample) : Supply :=
  if s.channel.length < channelSize then
    { s with ready := none, channel := s.channel ++ [block] }
  else s

/-- Reads and decodes the next block. The thread ends with the input or over an error. -/
def readNext (s : Supply) : Supply :=
  match s.reader.readBlock (s.blockSize * s.format.bytesPerSample) with
  | (.error problem, reader) => { s with reader, ended := some (.error problem) }
  | (.ok [], reader) => { s with reader, ended := some (.ok ()) }
  | (.ok (b :: bytes), reader) => { s with reader, ready := some (s.format.decode (b :: bytes)) }

/-- One step of the reader thread. -/
def step (s : Supply) : Supply :=
  match s.ended with
  | some _ => s
  | none =>
      match s.ready with
      | some block => s.send block
      | none => s.readNext

def steps : Nat → Supply → Supply
  | 0, s => s
  | count + 1, s => steps count s.step

end Supply

/-- What happens before the feeding thread looks at the channel, and while it works in the block
that it may find there. -/
structure Round where
  reading : Nat := 0
  moves : List Move := []
  pauses : List Pause := []
  gaps : List (List Move) := []

/-- How the threads take turns: while the samples are fed, and during the stop, which begins with
the clock at `now`. -/
structure Timeline where
  rounds : List Round
  closing : List Pause
  now : Instant := ⟨0⟩

abbrev Sink := TransmitSink FileEngine

/-- The state of the feeding thread: the samples it has fed so far. -/
structure Feeding where
  supply : Supply
  sink : Sink
  samples : Nat := 0

/-- Feeds blocks until the channel is closed or the sink fails. -/
def feed : List Round → Feeding → Except Halt (Except SinkError Unit × Feeding)
  | [], _ => .error .waiting
  | round :: rest, f =>
      let supply := f.supply.steps round.reading
      match Call.moveAll round.moves { sink := f.sink } with
      | .error halt _ => .error halt
      | .ok () p =>
          match supply.channel with
          | [] =>
              if supply.ended.isSome then .ok (.ok (), { f with supply, sink := p.sink })
              else feed rest { f with supply, sink := p.sink }
          | block :: channel =>
              let supply := { supply with channel }
              match Call.workAll block
                  { sink := p.sink, pauses := round.pauses, gaps := round.gaps } with
              | .ok () p =>
                  feed rest { supply, sink := p.sink, samples := f.samples + block.length }
              | .error (.failed error) p => .ok (.error error, { f with supply, sink := p.sink })
              | .error halt _ => .error halt

/-- Stops the sink. -/
def close (now : Instant) (pauses : List Pause) (sink : Sink) :
    Except Halt (Except SinkError Unit × Sink) :=
  match Call.stopAt now { sink, pauses } with
  | .ok () p => .ok (.ok (), p.sink)
  | .error (.failed error) p => .ok (.error error, p.sink)
  | .error halt _ => .error halt

/-- What sending a file came to: its result, the samples that were fed and the counters of the
sink if it streamed, and the bytes in the output if that could be created. -/
structure Report where
  result : Except TransmitError Unit
  sent : Option (Nat × Stats) := none
  written : Option (List Int8) := none

/-- The first of three results that is an error: of feeding, of the stop, of the reader. -/
def firstError (fed stopped : Except SinkError Unit) (read : Except String Unit) :
    Except TransmitError Unit :=
  match fed, stopped, read with
  | .error error, _, _ => .error (.sink error)
  | .ok (), .error error, _ => .error (.sink error)
  | .ok (), .ok (), .error problem => .error (.read problem)
  | .ok (), .ok (), .ok () => .ok ()

def written (sink : Sink) : Option (List Int8) := sink.engine.map fun e => e.output.bytes

/-- Feeds and stops a sink that has started. -/
def stream (timeline : Timeline) (supply : Supply) (sink : Sink) : Except Halt Report := do
  let (fed, f) ← feed timeline.rounds { supply, sink }
  let (stopped, sink) ← close timeline.now timeline.closing f.sink
  return {
    result := firstError fed stopped (f.supply.ended.getD (.ok ()))
    sent := some (f.samples, sink.feed.stats)
    written := written sink }

/-- Sends a file. The output is opened first; then the configuration is checked, and the input
opened last. -/
def run (options : TransmitOptions) (config : SinkConfig) (output : Except OsError Device)
    (input : Except OsError Reader) (timeline : Timeline) : Except Halt Report :=
  match options.output with
  | none => .ok { result := .error (.noRadio options.device) }
  | some path =>
      match FileEngine.create path output config.slotSize with
      | .error problem => .ok { result := .error (.noOutput problem) }
      | .ok engine =>
          match TransmitSink.make config (some engine) with
          | .error (.failed error) =>
              .ok { result := .error (.sink error), written := some engine.output.bytes }
          | .error halt => .error halt
          | .ok sink =>
              match input with
              | .error problem =>
                  .ok { result := .error (.noInput options.input problem), written := written sink }
              | .ok reader =>
                  match sink.start with
                  | (.error error, sink) =>
                      .ok { result := .error (.sink error), written := written sink }
                  | (.ok (), sink) => stream timeline { reader, format := options.format } sink

/-- A timeline with a steady pace that is long enough for an input of `size` bytes. -/
def steadyTimeline (options : TransmitOptions) (config : SinkConfig) (size : Nat) : Timeline :=
  let interval := (FileEngine.interval config.slotSize options.sampleRate).getD ⟨0⟩
  let blockSlots := blockSize * 2 / config.slotSize
  let blocks := size / (blockSize * options.format.bytesPerSample)
  let slots := size / options.format.bytesPerSample * 2 / config.slotSize
  let round : Round := { reading := 2, pauses := enoughPauses interval blockSlots }
  { rounds := List.replicate (blocks + 4) round, closing := enoughPauses interval slots }

/-- The line of statistics, with the time in seconds that sending took. -/
def statsLine (label seconds : String) (samples : Nat) (stats : Stats) : String :=
  let slots := stats.drained
  let underruns := stats.underruns
  let deferred := stats.deferred
  s!"{label} ({seconds}s): samples: {samples} slots: {slots} " ++
    s!"underruns: {underruns} deferred: {deferred}"

end Transmission

end IqTransmit
