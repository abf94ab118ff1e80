import IqTransmit.Engine.Steered
import IqTransmit.Proofs.Engine.Start
import IqTransmit.Proofs.Sink.Phases

/-!
No check fails. Slices, differences of sizes, the length of a conversion and the copies of the ring
are checked where they are made, but what makes them good lies elsewhere: in the configuration, in
the fill offset that the last call left, and in the room that was waited for. Every call keeps the
promises of the others, so that the only calls without an answer are those that wait for good, and
stops whose time limit goes beyond the range of the clock.
-/

namespace IqTransmit.Operation

variable {E α : Type}

/-- What a call of the fill side answers that ends with a result, or halts in one of some ways. -/
theorem ofCall_answers {answer : α → Reply E} {call : Call E α} {p : Progress E}
    {done : α → Progress E → Prop} {halts : Halt → Prop} (hreturns : ∀ a, (answer a).returns = true)
    (h : Call.Ends call p done fun halt _ => halts halt) :
    (ofCall answer call p).1.returns = true ∨
      ∃ halt, halts halt ∧ (ofCall answer call p).1 = .halted halt := by
  simp only [ofCall]
  cases he : call p with
  | ok a q => exact .inl (hreturns a)
  | error halt q => exact .inr ⟨halt, h.error he, rfl⟩

/-- Why a call has no answer: it waits for good, or it is a stop whose deadline the clock never
comes to. -/
def Unanswered (config : SinkConfig) (operation : Operation E) (halt : Halt) : Prop :=
  halt = .waiting ∨ ∃ pauses gaps now, operation = .stop pauses gaps now ∧
    halt = .fault .timeRange ∧ config.deadline now = .error .timeRange

variable [TransferEngine E] {s : TransmitSink E}

/-- A call answers, or there is such a reason. -/
theorem perform_answers (h : s.Invariant) (operation : Operation E) :
    (operation.perform s).1.returns = true ∨
      ∃ halt, Unanswered s.config operation halt ∧ (operation.perform s).1 = .halted halt := by
  cases operation with
  | bind engine => exact .inl rfl
  | useStrategy strategy => exact .inl rfl
  | start => exact .inl rfl
  | drain drainer dest =>
      obtain ⟨delivery, g, _, he, _⟩ := Feed.drain_flow h.ring drainer dest
      left
      simp only [perform, TransmitSink.drain, he]
      rfl
  | act action =>
      have hends := Call.act_ends (p := { sink := s }) action (.ok ()) h.ring
      exact ofCall_answers (fun _ => rfl) (hends.imp (fun _ _ hq => hq) fun _ _ hn => hn.elim)
  | work input pauses gaps =>
      have hends : Call.Ends (Call.attempt (Call.work input)) ⟨s, pauses, gaps⟩
          (fun _ _ => True)
          (fun halt _ => Unanswered (E := E) s.config (.work input pauses gaps) halt) := by
        refine .attempt ((Call.work_ends input h.toSound).imp (fun _ _ _ => trivial) ?_)
        rintro halt q ⟨_, _, rfl | ⟨rfl, _⟩⟩
        · exact .inl rfl
        · trivial
      exact ofCall_answers (fun _ => rfl) hends
  | workAll input pauses gaps =>
      have hends : Call.Ends (Call.attempt (Call.workAll input)) ⟨s, pauses, gaps⟩
          (fun _ _ => True)
          (fun halt _ => Unanswered (E := E) s.config (.workAll input pauses gaps) halt) := by
        refine .attempt ((Call.workAll_ends input h.toSound).imp (fun _ _ _ => trivial) ?_)
        rintro halt q ⟨rest, r, _, hrounds, hlast⟩
        have hr := hrounds.sound h.toSound
        obtain ⟨_, _, rfl | ⟨rfl, _⟩⟩ := (Call.work_ends rest hr).error hlast
        · exact .inl rfl
        · trivial
      exact ofCall_answers (fun _ => rfl) hends
  | stop pauses gaps now =>
      by_cases hphase : s.phase = .streaming
      · have hends := Call.stop_ends (p := ⟨s, pauses, gaps⟩) now h.toSound hphase
          (h.bound_of_streaming hphase)
        refine ofCall_answers (fun _ => rfl) (hends.imp (fun _ _ hq => hq) ?_)
        rintro halt _ (hwait | ⟨hfault, hnone⟩)
        · exact .inl hwait
        · exact .inr ⟨pauses, gaps, now, rfl, hfault, hnone⟩
      · obtain ⟨result, hsame⟩ := Call.stop_of_not_streaming (p := ⟨s, pauses, gaps⟩) now hphase
        simp only [perform, ofCall, hsame]
        exact .inl rfl

/-- So does every call of a run. -/
theorem run_answers (hr : s.Reachable) (operations : List (Operation E)) :
    ∀ reply ∈ (run s operations).1, reply.returns = true ∨
      ∃ operation ∈ operations, ∃ halt, Unanswered s.config operation halt ∧
        reply = .halted halt := by
  intro reply hmem
  rw [run_replies, List.mem_map] at hmem
  obtain ⟨step, hstep, rfl⟩ := hmem
  obtain ⟨earlier, later, hsplit⟩ := List.append_of_mem hstep
  have hbefore : step.before.Reachable ∧ step.before.config = s.config := by
    refine holds_before_step (P := fun _ t => t.Reachable ∧ t.config = s.config) hsplit [] ⟨hr, rfl⟩
      fun _ step _ ht hreturns => ⟨perform_reachable ht.1 step.operation hreturns, ?_⟩
    exact (step.config_eq ht.1.invariant.toSound).trans ht.2
  rcases perform_answers hbefore.1.invariant step.operation with hreturns | ⟨halt, hcause, hhalts⟩
  · exact .inl hreturns
  · exact .inr ⟨step.operation, operation_mem_of_mem_steps hstep, halt, hbefore.2 ▸ hcause, hhalts⟩

/-- A sink of a valid configuration, whose ring one store can hold, is made, and whatever it is
then called to do, with inputs and buffers of any length and whoever drains it meanwhile, no check
of a size fails. A call without an answer is one that waits for good, or a stop whose deadline the
clock never comes to. -/
theorem run_passes_checks {config : SinkConfig} (hconfig : config.validate = .ok ())
    (hsize : config.bufferCount * config.slotSize ≤ maxStore) (engine : Option E)
    (strategy : Cs8.Strategy) (operations : List (Operation E)) :
    ∃ s, TransmitSink.make config engine = .ok s ∧
      ∀ reply ∈ (run (s.withStrategy strategy) operations).1,
        (∀ fault, reply = .halted (.fault fault) → fault = .timeRange ∧
          ∃ pauses gaps now, .stop pauses gaps now ∈ operations ∧
            config.deadline now = .error .timeRange) ∧
          (reply.returns = false →
            reply = .halted .waiting ∨ reply = .halted (.fault .timeRange)) := by
  obtain ⟨s, hmade, _, _, hgiven, _⟩ := TransmitSink.make_of_valid hconfig hsize engine
  have hr : (s.withStrategy strategy).Reachable := .withStrategy strategy (.make hmade)
  have hsame : (s.withStrategy strategy).config = config :=
    (steady_config (fun _ _ : E => True) config).withStrategy hgiven strategy
  refine ⟨s, hmade, fun reply hmem => ?_⟩
  rcases run_answers hr operations reply hmem with
    hreturns | ⟨operation, hcalled, halt, hcause, rfl⟩
  · refine ⟨?_, fun hhalts => ?_⟩
    · rintro fault rfl
      cases hreturns
    · rw [hreturns] at hhalts
      cases hhalts
  · rcases hcause with rfl | ⟨pauses, gaps, now, rfl, rfl, hnone⟩
    · exact ⟨fun _ => nofun, fun _ => .inl rfl⟩
    · refine ⟨?_, fun _ => .inr rfl⟩
      rintro _ ⟨⟩
      exact ⟨rfl, pauses, gaps, now, hcalled, hsame ▸ hnone⟩

/-- A slot is filled partly, a drain offers a buffer of another length, and the last of two samples
more is left waiting for room. -/
theorem run_passes_checks_to_full_ring :
    ∃ (s : TransmitSink Steered) (replies : List (Reply Steered)),
      TransmitSink.make { bufferCount := 1, slotSize := 4 } none = .ok s ∧
      (run (s.withStrategy .sse2) [.work [⟨⟨0x3f800000⟩, ⟨0⟩⟩] [] [], .drain .other [1, 2, 3],
        .workAll [⟨⟨0x3f800000⟩, ⟨0⟩⟩, ⟨⟨0⟩, ⟨0x3f800000⟩⟩] [] []]).1 = replies ∧
      replies = [.worked (.ok 1), .drained ⟨.proceed, [0, 0, 0]⟩, .halted .waiting] ∧
      ∀ reply ∈ replies, ∀ fault, reply ≠ .halted (.fault fault) := by
  obtain ⟨s, hmade, hpasses⟩ := run_passes_checks
    (rfl : SinkConfig.validate { bufferCount := 1, slotSize := 4 } = .ok ()) (by decide)
    (none : Option Steered) .sse2
    [.work [⟨⟨0x3f800000⟩, ⟨0⟩⟩] [] [], .drain .other [1, 2, 3],
      .workAll [⟨⟨0x3f800000⟩, ⟨0⟩⟩, ⟨⟨0⟩, ⟨0x3f800000⟩⟩] [] []]
  refine ⟨s, _, hmade, rfl, ?_, fun reply hmem fault hfault => ?_⟩
  · cases hmade
    decide +kernel
  · obtain ⟨_, _, _, _, hstop, _⟩ := (hpasses reply hmem).1 fault hfault
    simp at hstop

end IqTransmit.Operation
