import IqTransmit.Proofs.Sink.Operation

/-!
The steps of a run of calls, one for each call that was made. A statement about a run may be about
what each of its steps does, or about the steps before it; either is proved by an invariant of the
steps so far and the sink that they have led to.
-/

namespace IqTransmit

/-- A call, and the sink on which it was made. -/
structure SinkStep (E : Type) where
  before : TransmitSink E
  operation : Operation E

variable {E : Type} [TransferEngine E]

namespace SinkStep

/-- What the call answers. -/
def reply (step : SinkStep E) : Reply E := (step.operation.perform step.before).1

/-- The sink after the call, which is where it halts if it does not return. -/
def after (step : SinkStep E) : TransmitSink E := (step.operation.perform step.before).2

end SinkStep

namespace Operation

/-- The steps of a run of calls. One that does not return is the last. -/
def steps (s : TransmitSink E) : List (Operation E) → List (SinkStep E)
  | [] => []
  | operation :: rest =>
      let step : SinkStep E := ⟨s, operation⟩
      step :: if step.reply.returns then steps step.after rest else []

variable {s : TransmitSink E} {operation : Operation E} {rest operations : List (Operation E)}

theorem steps_of_returns (h : (⟨s, operation⟩ : SinkStep E).reply.returns = true) :
    steps s (operation :: rest) =
      ⟨s, operation⟩ :: steps (⟨s, operation⟩ : SinkStep E).after rest := by
  simp only [steps]
  rw [if_pos h]

theorem steps_of_halted (h : (⟨s, operation⟩ : SinkStep E).reply.returns = false) :
    steps s (operation :: rest) = [⟨s, operation⟩] := by
  simp only [steps]
  rw [if_neg (by simp [h])]

theorem steps_singleton (s : TransmitSink E) (operation : Operation E) :
    steps s [operation] = [⟨s, operation⟩] := by
  simp [steps]

/-- The answers of a run are those of its steps. -/
theorem run_replies (s : TransmitSink E) (operations : List (Operation E)) :
    (run s operations).1 = (steps s operations).map SinkStep.reply := by
  induction operations generalizing s with
  | nil => rfl
  | cons operation rest ih =>
      cases h : (⟨s, operation⟩ : SinkStep E).reply.returns with
      | true =>
          rw [run_of_returns h, steps_of_returns h, List.map_cons, ← ih]
          rfl
      | false =>
          rw [run_of_halted h, steps_of_halted h]
          rfl

theorem operation_mem_of_mem_steps {step : SinkStep E} (h : step ∈ steps s operations) :
    step.operation ∈ operations := by
  induction operations generalizing s with
  | nil => cases h
  | cons operation rest ih =>
      cases hreturns : (⟨s, operation⟩ : SinkStep E).reply.returns with
      | true =>
          rw [steps_of_returns hreturns] at h
          rcases List.mem_cons.mp h with rfl | h
          · exact List.mem_cons_self
          · exact List.mem_cons_of_mem _ (ih h)
      | false =>
          rw [steps_of_halted hreturns] at h
          rw [List.mem_singleton.mp h]
          exact List.mem_cons_self

/-- An invariant of the steps so far and the sink that they have led to, which every step keeps that
returns, holds before each step. -/
theorem holds_before_step {P : List (SinkStep E) → TransmitSink E → Prop}
    {earlier later : List (SinkStep E)} {step : SinkStep E}
    (hsplit : steps s operations = earlier ++ step :: later) (past : List (SinkStep E))
    (hs : P past s)
    (hstep : ∀ past, ∀ step ∈ steps s operations, P past step.before →
      step.reply.returns = true → P (past ++ [step]) step.after) :
    P (past ++ earlier) step.before := by
  induction operations generalizing s past earlier with
  | nil => simp [steps] at hsplit
  | cons operation rest ih =>
      cases earlier with
      | nil =>
          have hfirst := congrArg List.head? hsplit
          simp only [steps, List.nil_append, List.head?_cons, Option.some.injEq] at hfirst
          rw [← hfirst, List.append_nil]
          exact hs
      | cons first earlier =>
          cases hreturns : (⟨s, operation⟩ : SinkStep E).reply.returns with
          | false =>
              rw [steps_of_halted hreturns] at hsplit
              simp at hsplit
          | true =>
              rw [steps_of_returns hreturns] at hsplit hstep
              obtain ⟨rfl, hrest⟩ := List.cons.inj hsplit
              have hnext := hstep past _ List.mem_cons_self hs hreturns
              rw [List.append_cons]
              apply ih hrest _ hnext
              exact fun past step hmem => hstep past step (List.mem_cons_of_mem _ hmem)

end Operation

end IqTransmit
