import IqTransmit.Engine.Steered
import IqTransmit.Proofs.Sink.Phases

/-!
Starts that fail. A start is refused without an engine or with one of another transfer size, and
leaves the sink as it is; one that the engine rejects leaves the ring and the mark of the stream as
every start does. The next start does the same to these again, so that the sink that streams at last
is the one that the last start alone makes, but for the journal.
-/

namespace IqTransmit

variable {E : Type}

/-- The same engines, begun in another way. -/
abbrev TransferEngine.withStart [TransferEngine E] (launch : E → Except String Unit × E) :
    TransferEngine E where
  transferSize := TransferEngine.transferSize
  start := launch
  stop := TransferEngine.stop
  poll := TransferEngine.poll
  advance := TransferEngine.advance

/-- A call that comes before a start: another start, a bind of an engine, or a change of the engine
that takes nothing from the ring. -/
inductive Operation.Preparing : Operation E → Prop where
  | start : Preparing .start
  | bind (engine : E) : Preparing (.bind engine)
  | change (answer : E → Except String Unit) (next : E → E) :
      Preparing (.act fun engine => .finish (answer engine) (next engine))

namespace TransmitSink

variable {s t u : TransmitSink E} {error : SinkError}

/-! ## What a start makes of a sink -/

/-- The ring is at its start what it is at the start after a rejected one. -/
theorem feedAtStart_ring_again (s : TransmitSink E) (engine : Option E) (notice : Notice) :
    (({ s with engine, feed := s.feedAtStart, fillOffset := 0 } :
      TransmitSink E).report notice).feedAtStart.ring = s.feedAtStart.ring := by
  change (if s.phase = .idle then s.feedAtStart.ring else s.feedAtStart.ring.clear) = _
  by_cases hidle : s.phase = .idle
  · rw [if_pos hidle]
  · rw [if_neg hidle, feedAtStart_ring_of_not_idle hidle]
    rfl

/-- A sink from which a start leads where it leads from `s`: with the same settings, phase and
counters, and a ring that is the same at the start. -/
structure Prepared (s t : TransmitSink E) : Prop where
  phase_eq : t.phase = s.phase
  config_eq : t.config = s.config
  converter_eq : t.converter = s.converter
  scratch_eq : t.scratch = s.scratch
  stats_eq : t.feed.stats = s.feed.stats
  ring_eq : t.feedAtStart.ring = s.feedAtStart.ring

theorem Prepared.refl (s : TransmitSink E) : s.Prepared s := ⟨rfl, rfl, rfl, rfl, rfl, rfl⟩

theorem Prepared.rebound (h : s.Prepared t) (engine : E) :
    s.Prepared { t with engine := some engine } :=
  ⟨h.phase_eq, h.config_eq, h.converter_eq, h.scratch_eq, h.stats_eq, h.ring_eq⟩

/-- Sinks in the same phase with the same mark of the stream, queue, pending bytes and counters. -/
structure SameSession (t u : TransmitSink E) : Prop where
  phase_eq : t.phase = u.phase
  stopping_eq : t.feed.stopping = u.feed.stopping
  queue_eq : t.queue = u.queue
  fillOffset_eq : t.fillOffset = u.fillOffset
  stats_eq : t.feed.stats = u.feed.stats

theorem Prepared.sameSession (h : s.Prepared t) (after after' : E) :
    SameSession (t.startedWith after) (s.startedWith after') where
  phase_eq := rfl
  stopping_eq := rfl
  queue_eq := congrArg SlotRing.contents h.ring_eq
  fillOffset_eq := rfl
  stats_eq := h.stats_eq

/-- Starts that lead to the same engine leave sinks that differ in their journals only. -/
theorem Prepared.startedWith_eq (h : s.Prepared t) (after : E) :
    t.startedWith after = { s.startedWith after with
      feed := { (s.startedWith after).feed with
        journal := (t.startedWith after).feed.journal } } := by
  obtain ⟨_, hconfig, hconverter, hscratch, hstats, hring⟩ := h
  simp only [startedWith, report, Feed.report, Feed.note, feedAtStart] at hring ⊢
  simp only [hconfig, hconverter, hscratch, hstats, hring]

theorem bind_of_not_streaming (hs : s.Invariant) (hphase : s.phase ≠ .streaming) (engine : E) :
    (s.bind engine).2 = { s with engine := some engine } := by
  simp only [bind]
  split
  · next hstreams => exact absurd hstreams hphase
  · next hstops => exact absurd hstops hs.settled
  · rfl
  · rfl

variable [TransferEngine E]

/-! ## One start -/

/-- How engines begin does not matter to a start of a sink that streams or whose engine, if there is
one, has another transfer size: no engine is begun. -/
theorem start_withStart (h : ∀ engine, s.engine = some engine → s.phase = .streaming ∨
    TransferEngine.transferSize engine ≠ s.config.slotSize)
    (launch : E → Except String Unit × E) : @start E (.withStart launch) s = s.start := by
  cases hengine : s.engine with
  | none => simp only [start, hengine]
  | some engine =>
      by_cases hphase : s.phase = .streaming
      · simp only [start, hengine, if_pos hphase]
      · have hsize := (h engine hengine).resolve_left hphase
        rw [start_of_mismatched hphase hengine hsize]
        exact @start_of_mismatched E s engine (.withStart launch) hphase hengine hsize

/-! ## Runs of starts -/

theorem Prepared.failedStart (h : s.Prepared t) (hfailed : t.FailedStart error u) :
    s.Prepared u := by
  cases hfailed with
  | unbound _ => exact h
  | mismatched _ _ _ => exact h
  | rejected _ _ _ _ =>
      exact ⟨h.phase_eq, h.config_eq, h.converter_eq, h.scratch_eq, h.stats_eq,
        (feedAtStart_ring_again t _ _).trans h.ring_eq⟩

/-- One call before a start, if it is not a start that succeeds. -/
theorem Prepared.perform (h : s.Prepared t) {operation : Operation E}
    (hoperation : operation.Preparing) (hfails : (operation.perform t).1 ≠ .started (.ok ())) :
    s.Prepared (operation.perform t).2 := by
  cases hoperation with
  | start =>
      cases hstart : t.start with
      | mk result u =>
          simp only [Operation.perform, hstart] at hfails ⊢
          cases result with
          | ok _ => exact absurd rfl hfails
          | error error => exact h.failedStart (failedStart_of_error hstart)
  | bind engine =>
      simp only [Operation.perform]
      rcases t.bind_cases engine with hsame | ⟨_, hbound⟩
      · rw [hsame]
        exact h
      · rw [hbound]
        exact h.rebound engine
  | change answer next =>
      simp only [Operation.perform, Operation.ofCall, Call.act]
      cases t.engine with
      | none => exact h
      | some engine => exact h.rebound (next engine)

theorem Prepared.run {operations : List (Operation E)} (h : s.Prepared t)
    (hoperations : ∀ operation ∈ operations, operation.Preparing)
    (hfail : .started (.ok ()) ∉ (Operation.run t operations).1) :
    s.Prepared (Operation.run t operations).2 := by
  have hreplies : ∀ reply ∈ (Operation.run t operations).1, reply ≠ .started (.ok ()) := by
    rintro reply hmem rfl
    exact hfail hmem
  exact Operation.run_keeps
    (fun operation hmem _ ht hfails => ht.perform (hoperations operation hmem) hfails) h hreplies

/-- A start that fails keeps the phase, and the queue of an idle sink. It leaves the whole sink as it
is and does not begin the engine unless that has the right transfer size, and a start of a sink that
streams only reports this. After any run of starts that fail, with binds and changes of the engine
between them, a start that succeeds leaves what it leaves without that run on the same engine, but for
the journal, and the same phase, mark of the stream, queue, pending bytes and counters as any start
that succeeds without it. -/
theorem failed_starts_leave_no_trace (hr : Reachable s) :
    (∀ error t, s.start = (.error error, t) →
      s.FailedStart error t ∧ t.phase = s.phase ∧ (s.phase = .idle → t.feed.ring = s.feed.ring)) ∧
    (s.phase = .streaming → s.start = (.ok (), s.report .alreadyStreaming)) ∧
    ((∀ engine, s.engine = some engine → s.phase = .streaming ∨
        TransferEngine.transferSize engine ≠ s.config.slotSize) →
      ∀ launch : E → Except String Unit × E, @start E (.withStart launch) s = s.start) ∧
    (s.phase ≠ .streaming → ∀ (operations : List (Operation E)) (replies : List (Reply E))
      (t u : TransmitSink E), (∀ operation ∈ operations, operation.Preparing) →
      Operation.run s operations = (replies, t) → .started (.ok ()) ∉ replies →
      t.start = (.ok (), u) →
        (∃ engine v, t.engine = some engine ∧ (s.bind engine).2.start = (.ok (), v) ∧
          u = { v with feed := { v.feed with journal := u.feed.journal } }) ∧
        ∀ engine v, (s.bind engine).2.start = (.ok (), v) → SameSession u v) := by
  have hs := hr.invariant
  refine ⟨fun error t h => ?_, fun hphase => ?_, start_withStart, ?_⟩
  · have hfailed := failedStart_of_error h
    exact ⟨hfailed, hfailed.phase_eq, hfailed.ring_eq⟩
  · obtain ⟨engine, hengine⟩ := Option.isSome_iff_exists.mp (hs.bound_of_streaming hphase)
    exact start_of_streaming hengine hphase
  intro hphase operations replies t u hoperations hrun hfail hstart
  have hprepared : s.Prepared t := by
    have hruns := (Prepared.refl s).run hoperations (by rwa [hrun])
    rwa [hrun] at hruns
  have hready : t.phase ≠ .streaming := by rwa [hprepared.phase_eq]
  obtain ⟨engine, after, hengine, hsize, haccepted, rfl⟩ := start_eq_ok hready hstart
  constructor
  · refine ⟨engine, s.startedWith after, hengine, ?_, hprepared.startedWith_eq after⟩
    rw [bind_of_not_streaming hs hphase]
    exact start_of_accepted (s := { s with engine := some engine }) hphase rfl
      (hsize.trans (congrArg _ hprepared.config_eq)) haccepted
  · intro other v hother
    rw [bind_of_not_streaming hs hphase] at hother
    obtain ⟨_, after', _, _, _, rfl⟩ :=
      start_eq_ok (s := { s with engine := some other }) hphase hother
    exact hprepared.sameSession after after'

/-- Starts without an engine, with one of another transfer size and with one that rejects them, which
is told to do so no more. -/
def failingStarts : List (Operation Steered) :=
  [.start, .bind { transferSize := 6 }, .start,
    .bind { transferSize := 4, startError := some "busy" }, .start,
    .act fun engine => .finish (.ok ()) { engine with startError := none }]

theorem preparing_failingStarts : ∀ operation ∈ failingStarts, operation.Preparing := by
  intro operation hmem
  simp only [failingStarts, List.mem_cons, List.not_mem_nil, or_false] at hmem
  rcases hmem with rfl | rfl | rfl | rfl | rfl | rfl
  · exact .start
  · exact .bind _
  · exact .start
  · exact .bind _
  · exact .start
  · exact .change _ _

/-- A slot and half of one are put into an idle sink. Three starts fail for three reasons; the one after
them finds the slot, as it does alone. -/
theorem slot_outlives_failed_starts :
    ∃ (s t u v : TransmitSink Steered), Reachable s ∧ s.phase = .idle ∧
      s.queue = [[127, 0, 127, 0]] ∧ s.fillOffset = 2 ∧
      Operation.run s failingStarts = ([.started (.error .noDevice), .bound (.ok none),
        .started (.error (.config (.transferSize 4 6))), .bound (.ok (some { transferSize := 6 })),
        .started (.error (.hardwareStart "busy")), .acted (.ok ())], t) ∧
      t.start = (.ok (), u) ∧ (s.bind { transferSize := 4 }).2.start = (.ok (), v) ∧
      SameSession u v ∧ v.queue = [[127, 0, 127, 0]] := by
  have hmade := Reachable.make
    (rfl : make { bufferCount := 2, slotSize := 4 } (none : Option Steered) = .ok _)
  have hfilled := Operation.perform_reachable hmade
    (.workAll (List.replicate 3 ⟨⟨0x3f800000⟩, ⟨0⟩⟩) [] []) (by decide +kernel)
  obtain ⟨s, hr, hphase, hqueue, hpending, hreplies, hlast, halone, hkept⟩ :
      ∃ s : TransmitSink Steered, Reachable s ∧ s.phase = .idle ∧ s.queue = [[127, 0, 127, 0]] ∧
        s.fillOffset = 2 ∧
        (Operation.run s failingStarts).1 = [.started (.error .noDevice), .bound (.ok none),
          .started (.error (.config (.transferSize 4 6))),
          .bound (.ok (some { transferSize := 6 })),
          .started (.error (.hardwareStart "busy")), .acted (.ok ())] ∧
        (Operation.run s failingStarts).2.start.1 = .ok () ∧
        (s.bind { transferSize := 4 }).2.start.1 = .ok () ∧
        (s.bind { transferSize := 4 }).2.start.2.queue = [[127, 0, 127, 0]] :=
    ⟨_, hfilled, by decide +kernel, by decide +kernel, by decide +kernel, by decide +kernel,
      by decide +kernel, by decide +kernel, by decide +kernel⟩
  have hready : s.phase ≠ .streaming := by
    rw [hphase]
    decide
  have hrun : Operation.run s failingStarts =
      ((Operation.run s failingStarts).1, (Operation.run s failingStarts).2) := rfl
  have hfail : .started (.ok ()) ∉ (Operation.run s failingStarts).1 := by
    rw [hreplies]
    decide
  obtain ⟨_, hsame⟩ := (failed_starts_leave_no_trace hr).2.2.2 hready failingStarts _ _ _
    preparing_failingStarts hrun hfail (Prod.ext hlast rfl)
  exact ⟨s, _, _, _, hr, hphase, hqueue, hpending, Prod.ext hreplies rfl, Prod.ext hlast rfl,
    Prod.ext halone rfl, hsame _ _ (Prod.ext halone rfl), hkept⟩

end TransmitSink

end IqTransmit
