import IqTransmit.Proofs.Engine.Start
import IqTransmit.Proofs.Transmission.Feeding

/-!
Sending a file. Whatever the turns of the threads, the output holds the complete stream of all
samples that could be read; or a write or a flush of the output has failed, or the stop has come to
its limit, and then the result says so. With enough fair turns there is a result, unless the clock
never comes to the deadline of the stop.
-/

namespace IqTransmit.Transmission

variable {origin : Output} {start sink : Sink} {taken : List Sample} {config : SinkConfig}
variable {failure : Option String} {timeline : Timeline} {report : Report}

/-! ## Stopping -/

theorem close_eq (now : Instant) (pauses : List Pause) (sink : Sink) :
    close now pauses sink =
      match Call.attempt (Call.stopAt now) { sink, pauses } with
      | .ok result p => .ok (result, p.sink)
      | .error halt _ => .error halt := by
  simp only [close, Call.attempt]
  cases Call.stopAt now { sink, pauses } with
  | ok _ p => rfl
  | error halt p => cases halt <;> rfl

/-- A timeline in which nobody but the engine drains. -/
structure Timeline.Lawful (timeline : Timeline) : Prop where
  rounds : ∀ round ∈ timeline.rounds, round.Lawful
  closing : ∀ pause ∈ timeline.closing, OnlyEngine pause.moves

/-- Pauses enough for the stop of a sink with so many buffers, with the engine moving in each. -/
structure FairStop (bufferCount : Nat) (pauses : List Pause) : Prop where
  enough : 3 * bufferCount + 28 ≤ pauses.length
  moves : ∀ pause ∈ pauses, pause.moves ≠ []

/-- A timeline in which no thread is kept from its turns: more fair rounds than `turns`, and a fair
stop. -/
structure Timeline.Fair (turns bufferCount : Nat) (timeline : Timeline) : Prop where
  turns_lt : turns < timeline.rounds.length
  rounds : ∀ round ∈ timeline.rounds, round.Fair blockSize
  closing : FairStop bufferCount timeline.closing

/-- The stop of a sink under way. -/
theorem Underway.close (h : Underway origin start taken sink) (now : Instant) {pauses : List Pause}
    (hpauses : ∀ pause ∈ pauses, OnlyEngine pause.moves) :
    match close now pauses sink with
    | .ok (result, t) =>
        result = .ok () ∧ Tended.SentAll origin { sink with phase := .stopping } t ∨
          ∃ error, result = .error error ∧ Tended.Unsent ⟨origin, sink.config, .stopping, pauses,
            FairStop sink.config.bufferCount pauses⟩ error t
    | .error halt => (halt = .waiting ∧ ¬ FairStop sink.config.bufferCount pauses) ∨
        halt = .fault .timeRange ∧ sink.config.deadline now = .error .timeRange := by
  have htended : Tended ⟨origin, sink.config, .stopping, pauses,
      FairStop sink.config.bufferCount pauses⟩ false (3 * sink.config.bufferCount + 28)
      ⟨{ sink with phase := .stopping }, pauses, []⟩ :=
    h.tended (fun _ hnil => absurd hnil List.not_mem_nil) FairStop.enough .stopping
  have hends := Tended.stop (p := ⟨sink, pauses, []⟩) now ⟨hpauses, FairStop.moves⟩
    h.streamed.invariant.toSound h.phase_eq htended
  rw [close_eq]
  cases hrun : Call.attempt (Call.stopAt now) (⟨sink, pauses, []⟩ : Progress FileEngine) with
  | ok result q => exact hends.ok hrun
  | error halt q => exact hends.error hrun

/-! ## Results -/

/-- The result of sending a file when all that could be read was sent. -/
def readResult : Option String → Except TransmitError Unit
  | none => .ok ()
  | some problem => .error (.read problem)

/-- All samples that could be read were sent, and the result is that of the reader. -/
structure Sent (size : Nat) (failure : Option String) (samples : List Sample) (report : Report) :
    Prop where
  result_eq : report.result = readResult failure
  written : ∃ bytes, report.written = some bytes ∧ Complete size samples bytes

/-- The sink has failed, and the result is its error: a write or a flush of the output went wrong,
and what was written is what that left; or the stop had a limit and came to it. -/
def SinkFailed (origin : Output) (config : SinkConfig) (closing : List Pause) (report : Report) :
    Prop :=
  ∃ error, report.result = .error (.sink error) ∧
    ((∃ output, FileEngine.Lost origin output ∧ report.written = some output.bytes) ∨
      ∃ limit, config.stopTimeout = some limit ∧ error = .stopTimeout limit ∧
        ∃ pause ∈ closing, ¬ pause.InTime config.stopTimeout)

variable {supply : Supply} {f : Feeding} {blocks : List (List Sample)} {lag : Nat}

/-- Without a deadline for the stop there is no report, whatever came of feeding. -/
theorem stream_of_no_deadline {fed : Except SinkError Unit}
    (hfed : feed timeline.rounds { supply, sink } = .ok (fed, f)) (hsound : f.sink.Sound)
    (hphase : f.sink.phase = .streaming) (hengine : f.sink.engine.isSome = true)
    (hnever : f.sink.config.deadline timeline.now = .error .timeRange) :
    stream timeline supply sink = .error (.fault .timeRange) := by
  have hstop := (Call.stop_faults_iff (p := ⟨f.sink, timeline.closing, []⟩) hsound hphase
    hengine).mpr ⟨rfl, hnever, rfl⟩
  have hclose : close timeline.now timeline.closing f.sink = .error (.fault .timeRange) := by
    rw [close_eq, hstop]
  simp only [stream, hfed, hclose, bind, Except.bind]

/-- With an engine that has failed while samples were fed. -/
theorem Abandoned.stream (h : Abandoned origin config f.sink)
    (hfed : feed timeline.rounds { supply, sink } = .ok (.error .engineStopped, f)) :
    match stream timeline supply sink with
    | .ok report => SinkFailed origin config timeline.closing report
    | .error halt => halt = .fault .timeRange ∧
        config.deadline timeline.now = .error .timeRange := by
  rcases config.deadline_cases timeline.now with ⟨deadline, hdeadline⟩ | hnever
  · obtain ⟨q, hstop, e, he, hlost⟩ :=
      h.toBroken.stop h.sound.ring h.phase_eq (h.config_eq.symm ▸ hdeadline) timeline.closing []
    have hclose : close timeline.now timeline.closing f.sink =
        .ok (.error .engineStopped, q.sink) := by
      rw [close_eq, hstop]
    simp only [Transmission.stream, hfed, hclose, bind, Except.bind, pure, Except.pure]
    refine ⟨_, rfl, .inl ⟨e.output, hlost, ?_⟩⟩
    simp only [written, he, Option.map_some]
  · obtain ⟨e, _, he, _⟩ := h.failed
    rw [stream_of_no_deadline hfed h.sound h.phase_eq (Option.isSome_iff_exists.mpr ⟨e, he⟩)
      (h.config_eq.symm ▸ hnever)]
    exact ⟨rfl, hnever⟩

/-- Once all samples that could be read were fed. -/
theorem Underway.stream (h : Underway origin start taken f.sink) (hstart : start.Invariant)
    (hfresh : start.Fresh) (hcounted : origin.Counted) (hempty : origin.accepted = [])
    (htimeline : timeline.Lawful) (hended : f.supply.ended = some (ending failure))
    (hfed : feed timeline.rounds { supply, sink } = .ok (.ok (), f)) :
    match stream timeline supply sink with
    | .ok report => Sent start.config.slotSize failure taken report ∨
        SinkFailed origin start.config timeline.closing report
    | .error halt =>
        (halt = .waiting ∧ ¬ FairStop start.config.bufferCount timeline.closing) ∨
          halt = .fault .timeRange ∧ start.config.deadline timeline.now = .error .timeRange := by
  have hstop := h.close timeline.now htimeline.closing
  have hconfig : f.sink.config = start.config := h.streamed.config_eq
  cases hclose : Transmission.close timeline.now timeline.closing f.sink with
  | error halt =>
      rw [hclose] at hstop
      simp only [Transmission.stream, hfed, hclose, bind, Except.bind]
      rw [← hconfig]
      exact hstop
  | ok pair =>
      obtain ⟨result, t⟩ := pair
      rw [hclose] at hstop
      simp only [Transmission.stream, hfed, hclose, bind, Except.bind, pure, Except.pure, hended,
        Option.getD_some]
      rcases hstop with ⟨rfl, hsent⟩ | ⟨error, rfl, ⟨e, he, hlost⟩ | hlate⟩
      · obtain ⟨slots, e, he, hsends, hcomplete⟩ :=
          h.streamed.complete hstart hfresh h.stopping_eq hsent
        have hbytes := Output.sendEach_bytes hcounted hsends
        rw [hempty, List.nil_append] at hbytes
        refine .inl ⟨?_, slots.flatten, ?_, hcomplete⟩
        · cases failure <;> rfl
        · simp only [written, he, Option.map_some, hbytes]
      · refine .inr ⟨error, rfl, .inl ⟨e.output, hlost, ?_⟩⟩
        simp only [written, he, Option.map_some]
      · exact .inr ⟨error, rfl, .inr (hconfig ▸ hlate)⟩

end IqTransmit.Transmission
