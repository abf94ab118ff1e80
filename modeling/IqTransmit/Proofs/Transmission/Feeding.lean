import IqTransmit.Proofs.Transmission.Stream
import IqTransmit.Proofs.Transmission.Supply

/-!
Feeding a sink from a supply, and stopping it. Whatever the turns of the threads, feeding ends with
all blocks taken, or with an engine that has failed; with enough fair rounds it does end.
-/

namespace IqTransmit.Transmission

open Call (Ends)
open TransmitSink (Streamed)

/-- A round in which nobody but the engine drains. -/
structure Round.Lawful (round : Round) : Prop where
  moves : OnlyEngine round.moves
  pauses : ∀ pause ∈ round.pauses, OnlyEngine pause.moves
  gaps : ∀ moves ∈ round.gaps, OnlyEngine moves

/-- A round with a step of the reader thread, and with enough pauses for a block of `size` samples,
the engine moving in each of them. -/
structure Round.Fair (size : Nat) (round : Round) : Prop where
  reading : 0 < round.reading
  enough : 4 * size ≤ round.pauses.length
  moves : ∀ pause ∈ round.pauses, pause.moves ≠ []

/-- A sink that streams into its engine, and that has taken `taken` since `start`. -/
structure Underway (origin : Output) (start : Sink) (taken : List Sample) (s : Sink) : Prop where
  streamed : Streamed start taken s
  phase_eq : s.phase = .streaming
  engine : ∃ e, s.engine = some e ∧ e.Attached origin s.feed

/-- A sink that streams although its engine has failed at a full ring. -/
structure Abandoned (origin : Output) (config : SinkConfig) (s : Sink) : Prop
    extends Broken origin s where
  sound : s.Sound
  phase_eq : s.phase = .streaming
  config_eq : s.config = config

namespace Underway

variable {origin : Output} {start s : Sink} {taken : List Sample}

theorem stopping_eq (h : Underway origin start taken s) : s.feed.stopping = false :=
  h.streamed.invariant.flowing (by rw [h.phase_eq]; nofun)

/-- A call during which the engine alone moves. -/
theorem tended (h : Underway origin start taken s) {pauses : List Pause} {gaps : List (List Move)}
    (hgaps : ∀ moves ∈ gaps, OnlyEngine moves) {fair : Prop} {need : Nat}
    (henough : fair → need ≤ pauses.length) (phase : Phase) :
    Tended ⟨origin, s.config, phase, pauses, fair⟩ false need ⟨{ s with phase }, pauses, gaps⟩ :=
  ⟨h.streamed.invariant.ring, h.engine, h.stopping_eq, h.streamed.invariant.capacity_eq, rfl, rfl,
    List.Subset.refl _, hgaps, henough⟩

theorem moveAll (h : Underway origin start taken s) {moves : List Move}
    (hmoves : OnlyEngine moves) :
    ∃ p, Call.moveAll moves { sink := s } = .ok () p ∧ Underway origin start taken p.sink := by
  obtain ⟨e, he, hattached⟩ := h.engine
  obtain ⟨e', feed, hrun, hattached', hdrained, _⟩ :=
    hattached.moveAll (p := { sink := s }) hmoves he h.streamed.invariant.ring
  refine ⟨_, hrun, h.streamed.moved ⟨hdrained, rfl, ?_⟩, h.phase_eq, e', rfl, hattached'⟩
  rw [he]
  rfl

/-- A block is taken as a whole, unless the engine has failed or the pauses were not fair. -/
theorem workAll (h : Underway origin start taken s) {block : List Sample} {round : Round}
    (hround : round.Lawful) {size : Nat} (hsize : block.length ≤ size) :
    Ends (Call.workAll block) ⟨s, round.pauses, round.gaps⟩
      (fun _ q => Underway origin start (taken ++ block) q.sink)
      (fun halt q => (halt = .waiting ∧ ¬ round.Fair size) ∨
        (halt = .failed .engineStopped ∧ Abandoned origin start.config q.sink)) := by
  have hinv := h.streamed.invariant
  have htended : Tended ⟨origin, s.config, .streaming, round.pauses, round.Fair size⟩ false
      (4 * block.length) ⟨{ s with phase := .streaming }, round.pauses, round.gaps⟩ :=
    h.tended hround.gaps
      (fun hfair => Nat.le_trans (Nat.mul_le_mul_left 4 hsize) hfair.enough) .streaming
  rw [← h.phase_eq] at htended
  refine ((htended.workAll ⟨hround.pauses, Round.Fair.moves⟩ h.phase_eq hinv.toSound).and
    (Call.workAll_ends (p := ⟨s, round.pauses, round.gaps⟩) block hinv.toSound)).imp ?_ ?_
  · rintro _ q ⟨hq, hrounds⟩
    obtain ⟨used, hused, hstreamed⟩ := h.streamed.rounds hrounds
    rw [List.append_nil] at hused
    exact ⟨hused ▸ hstreamed, hq.phase_eq.trans h.phase_eq, hq.engine⟩
  · rintro halt q ⟨hgave, rest, r, _, hrounds, hlast⟩
    have hr := hrounds.invariant hinv
    have hblocked := (Call.work_ends rest hr.toSound).error hlast
    rcases hgave with hwait | ⟨rfl, hbroken⟩ | ⟨_, hlimit, _⟩
    · exact .inl hwait
    · have hphase : q.sink.phase = .streaming := by
        rcases hblocked.cause with hwait | ⟨_, hphase⟩
        · cases hwait
        · exact hphase
      obtain ⟨_, _, hstreamed⟩ := h.streamed.rounds hrounds
      exact .inr ⟨rfl, hbroken, (hblocked.moved.invariant hr).toSound, hphase,
        hblocked.moved.config_eq.trans hstreamed.config_eq⟩
    · cases hlimit

end Underway

/-! ## Feeding -/

variable {origin : Output} {start : Sink} {taken : List Sample} {f : Feeding}
variable {failure : Option String} {blocks : List (List Sample)} {lag size : Nat}

/-- How feeding ends: with all blocks taken and the thread at its end, with an engine that has
failed, or, waiting, because the rounds were too few or not fair. -/
def FeedEnds (origin : Output) (start : Sink) (taken : List Sample) (failure : Option String)
    (fair : Prop) : Except Halt (Except SinkError Unit × Feeding) → Prop
  | .ok (.ok (), g) =>
      Underway origin start taken g.sink ∧ g.supply.ended = some (ending failure)
  | .ok (.error error, g) => error = .engineStopped ∧ Abandoned origin start.config g.sink
  | .error halt => halt = .waiting ∧ ¬ fair

theorem FeedEnds.imp {fair fair' : Prop} {result : Except Halt (Except SinkError Unit × Feeding)}
    (h : FeedEnds origin start taken failure fair result) (hfair : fair' → fair) :
    FeedEnds origin start taken failure fair' result := by
  cases result with
  | error halt => exact ⟨h.1, h.2 ∘ hfair⟩
  | ok pair =>
      obtain ⟨fed, g⟩ := pair
      cases fed with
      | ok _ => exact h
      | error error => exact h

end IqTransmit.Transmission
