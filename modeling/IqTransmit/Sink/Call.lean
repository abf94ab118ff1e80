import IqTransmit.Sink.Basic

/-!
Calls of the fill side that may wait. While a call waits, and wherever else it leaves the ring
unlocked, the engine's thread and other holders of the drain closure move. What they do is data:
a pause for each wait, with the time at which it begins, and a gap for each other place. A call
that needs more pauses than it is given is left waiting. So a statement about all pauses and gaps
is one about every interleaving.
-/

namespace IqTransmit

/-- A move of another thread. -/
inductive Move where
  | engine
  | drain (dest : List Int8)
  deriving DecidableEq, Repr

/-- One wait: the time since the call began, and the moves before the next look. -/
structure Pause where
  elapsed : Duration := ⟨0⟩
  moves : List Move := []
  deriving DecidableEq, Repr

/-- A sink during a call, with the pauses and gaps still to come. -/
structure Progress (E : Type) where
  sink : TransmitSink E
  pauses : List Pause := []
  gaps : List (List Move) := []

/-- A call of the fill side. The state is kept however the call ends. -/
abbrev Call (E : Type) := EStateM Halt (Progress E)

namespace Call

variable {E α : Type}

def sink : Call E (TransmitSink E) := fun p => .ok p.sink p

def update (f : TransmitSink E → TransmitSink E) : Call E Unit :=
  fun p => .ok () { p with sink := f p.sink }

def report (notice : Notice) : Call E Unit := update (·.report notice)

def fail (error : SinkError) : Call E α := throw (.failed error)

/-- The result of a checked computation. -/
def checked (result : Except Fault α) : Call E α :=
  match result with
  | .ok a => pure a
  | .error fault => throw (.fault fault)

/-- Carries on with the error of a call as a result; faults and waits still end it. -/
def attempt (call : Call E α) : Call E (Except SinkError α) := fun p =>
  match call p with
  | .ok a p => .ok (.ok a) p
  | .error (.failed error) p => .ok (.error error) p
  | .error halt p => .error halt p

variable [TransferEngine E]

/-- An action of the engine on the ring of its sink. -/
def act (action : E → Action E α) (absent : α) : Call E α := fun p =>
  match p.sink.engine with
  | none => .ok absent p
  | some engine =>
      match (action engine).run Feed.pull p.sink.feed with
      | .error fault feed => .error (.fault fault) { p with sink := { p.sink with feed } }
      | .ok (result, engine) feed =>
          .ok result { p with sink := { p.sink with engine := some engine, feed } }

/-- A move of another thread. -/
def move : Move → Call E Unit
  | .engine => act TransferEngine.advance ()
  | .drain dest => fun p =>
      match TransmitSink.drain .other dest p.sink with
      | .error fault sink => .error (.fault fault) { p with sink }
      | .ok _ sink => .ok () { p with sink }

def moveAll : List Move → Call E Unit
  | [], p => .ok () p
  | m :: rest, p =>
      match move m p with
      | .error halt p => .error halt p
      | .ok () p => moveAll rest p

/-- Whether the engine says that it streams. -/
def askEngine : Call E Bool := fun p =>
  match p.sink.engine with
  | none => .ok false p
  | some engine =>
      let (streams, engine) := TransferEngine.poll engine
      .ok streams { p with sink := { p.sink with engine := some engine } }

def hasRoom : Call E Bool := fun p => .ok p.sink.feed.ring.hasRoom p

/-- One wait, unless the limit has passed by then. -/
def pause (limit : Option Duration) (next : Pause) : Call E Unit :=
  match limit with
  | none => moveAll next.moves
  | some limit =>
      if limit.nanoseconds ≤ next.elapsed.nanoseconds then do
        report (.stopLate limit)
        fail (.stopTimeout limit)
      else moveAll next.moves

/-- Waits until `done`, with a `look` that may give up before each pause. -/
def waitThrough (done : Call E Bool) (look : Call E Unit) (limit : Option Duration) :
    List Pause → Call E Unit
  | [], p =>
      match done p with
      | .error halt p => .error halt p
      | .ok true p => .ok () p
      | .ok false p =>
          match look p with
          | .error halt p => .error halt p
          | .ok () p => .error .waiting p
  | next :: rest, p =>
      match done p with
      | .error halt p => .error halt p
      | .ok true p => .ok () p
      | .ok false p =>
          match look p with
          | .error halt p => .error halt p
          | .ok () p =>
              match pause limit next { p with pauses := rest } with
              | .error halt p => .error halt p
              | .ok () p => waitThrough done look limit rest p

/-- Waits through the pauses still to come. -/
def waitUntil (done : Call E Bool) (look : Call E Unit) (limit : Option Duration) :
    Call E Unit :=
  fun p => waitThrough done look limit p.pauses p

/-- Lets others move where the ring is unlocked for a moment. -/
def gap : Call E Unit := fun p =>
  match p.gaps with
  | [] => .ok () p
  | moves :: rest => moveAll moves { p with gaps := rest }

/-- Queues the scratch slot if there is room. -/
def pushScratch : Call E Bool := fun p =>
  match Feed.push p.sink.scratch p.sink.feed with
  | .error fault feed => .error (.fault fault) { p with sink := { p.sink with feed } }
  | .ok pushed feed => .ok pushed { p with sink := { p.sink with feed } }

end Call

end IqTransmit
