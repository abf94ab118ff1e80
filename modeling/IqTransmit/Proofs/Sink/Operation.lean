import IqTransmit.Proofs.Sink.Reachable

/-!
Calls on a sink as data, with what each of them answers, and runs of such calls. What others do
during a call belongs to the call, and so does the clock at which a stop begins, so that a statement
about all runs is one about every interleaving. A call that does not return is the last of its run.
-/

namespace IqTransmit

/-- A call on a sink or, by way of the sink, on its engine. -/
inductive Operation (E : Type) where
  | bind (engine : E)
  | useStrategy (strategy : Cs8.Strategy)
  | start
  | drain (drainer : Drainer) (dest : List Int8)
  | act (action : E → Action E (Except String Unit))
  | work (input : List Sample) (pauses : List Pause) (gaps : List (List Move))
  | workAll (input : List Sample) (pauses : List Pause) (gaps : List (List Move))
  | stop (pauses : List Pause) (gaps : List (List Move)) (now : Instant := ⟨0⟩)

/-- What a call answers, or that it did not return. -/
inductive Reply (E : Type) where
  | bound (result : Except SinkError (Option E))
  | replaced
  | started (result : Except SinkError Unit)
  | drained (delivery : Delivery)
  | acted (result : Except String Unit)
  | worked (result : Except SinkError Nat)
  | finished (result : Except SinkError Unit)
  | halted (halt : Halt)
  deriving DecidableEq

namespace Reply

variable {E : Type}

def returns : Reply E → Bool
  | halted _ => false
  | bound _ | replaced | started _ | drained _ | acted _ | worked _ | finished _ => true

/-- Whether it is the answer of a start that has got as far as the engine. -/
def reachedEngine : Reply E → Bool
  | started (.ok ()) | started (.error (.hardwareStart _)) => true
  | _ => false

end Reply

namespace Operation

variable {E α : Type}

/-- What a call of the fill side answers, and the sink after it. -/
def ofCall (answer : α → Reply E) (call : Call E α) (p : Progress E) : Reply E × TransmitSink E :=
  match call p with
  | .ok a q => (answer a, q.sink)
  | .error halt q => (.halted halt, q.sink)

/-- What holds however a call of the fill side ends holds after it. -/
theorem ofCall_keeps {P : TransmitSink E → Prop} {answer : α → Reply E} {call : Call E α}
    {p : Progress E} (h : Call.Ends call p (fun _ q => P q.sink) (fun _ q => P q.sink)) :
    P (ofCall answer call p).2 := by
  simp only [ofCall]
  cases he : call p with
  | ok a q => exact h.ok he
  | error halt q => exact h.error he

variable [TransferEngine E]

/-- One call. -/
def perform (s : TransmitSink E) : Operation E → Reply E × TransmitSink E
  | .bind engine => (.bound (s.bind engine).1, (s.bind engine).2)
  | .useStrategy strategy => (.replaced, s.withStrategy strategy)
  | .start => (.started s.start.1, s.start.2)
  | .drain drainer dest =>
      match s.drain drainer dest with
      | .ok delivery t => (.drained delivery, t)
      | .error fault t => (.halted (.fault fault), t)
  | .act action => ofCall .acted (Call.act action (.ok ())) { sink := s }
  | .work input pauses gaps => ofCall .worked (Call.attempt (Call.work input)) ⟨s, pauses, gaps⟩
  | .workAll input pauses gaps =>
      ofCall .finished (Call.attempt (Call.workAll input)) ⟨s, pauses, gaps⟩
  | .stop pauses gaps now =>
      ofCall .finished (Call.attempt (Call.stopAt now)) ⟨s, pauses, gaps⟩

/-- A call that returns leads from one reachable sink to another. -/
theorem perform_reachable {s : TransmitSink E} (hr : s.Reachable) (operation : Operation E)
    (hreturns : (operation.perform s).1.returns = true) : (operation.perform s).2.Reachable := by
  have hcall {α : Type} (answer : α → Reply E) {call : Call E α} {p : Progress E}
      (hreturns : (ofCall answer call p).1.returns = true) :
      ∃ a q, call p = .ok a q ∧ (ofCall answer call p).2 = q.sink := by
    simp only [ofCall] at hreturns ⊢
    cases he : call p with
    | ok a q => exact ⟨a, q, rfl, rfl⟩
    | error halt q =>
        rw [he] at hreturns
        cases hreturns
  cases operation with
  | bind engine => exact .bind engine hr
  | useStrategy strategy => exact .withStrategy strategy hr
  | start => exact .start hr
  | drain drainer dest =>
      simp only [perform] at hreturns ⊢
      cases he : s.drain drainer dest with
      | ok delivery t => exact .drain hr he
      | error fault t =>
          rw [he] at hreturns
          cases hreturns
  | act action =>
      obtain ⟨_, q, he, hsink⟩ := hcall .acted hreturns
      exact hsink ▸ .act (p := { sink := s }) hr he
  | work input pauses gaps =>
      obtain ⟨_, q, he, hsink⟩ := hcall .worked hreturns
      exact hsink ▸ .work (p := ⟨s, pauses, gaps⟩) hr he
  | workAll input pauses gaps =>
      obtain ⟨_, q, he, hsink⟩ := hcall .finished hreturns
      exact hsink ▸ .workAll (p := ⟨s, pauses, gaps⟩) hr he
  | stop pauses gaps now =>
      obtain ⟨_, q, he, hsink⟩ := hcall .finished hreturns
      exact hsink ▸ .stop (p := ⟨s, pauses, gaps⟩) hr he

/-- The answers of a run of calls, and the sink after it. -/
def run (s : TransmitSink E) : List (Operation E) → List (Reply E) × TransmitSink E
  | [] => ([], s)
  | operation :: rest =>
      let (reply, t) := operation.perform s
      if reply.returns then (reply :: (run t rest).1, (run t rest).2) else ([reply], t)

variable {s : TransmitSink E}

theorem run_of_returns {operation : Operation E} (h : (operation.perform s).1.returns = true)
    (rest : List (Operation E)) :
    run s (operation :: rest) = ((operation.perform s).1 :: (run (operation.perform s).2 rest).1,
      (run (operation.perform s).2 rest).2) := by
  simp only [run]
  rw [if_pos h]

theorem run_of_halted {operation : Operation E} (h : (operation.perform s).1.returns = false)
    (rest : List (Operation E)) :
    run s (operation :: rest) = ([(operation.perform s).1], (operation.perform s).2) := by
  simp only [run]
  rw [if_neg (by simp [h])]

/-- What each of some calls keeps that answers as `allowed` is kept by every run of them with such
answers. -/
theorem run_keeps {P : TransmitSink E → Prop} {allowed : Reply E → Prop}
    {operations : List (Operation E)}
    (hstep : ∀ operation ∈ operations, ∀ s, P s → allowed (operation.perform s).1 →
      P (operation.perform s).2)
    (hs : P s) (h : ∀ reply ∈ (run s operations).1, allowed reply) : P (run s operations).2 := by
  induction operations generalizing s with
  | nil => exact hs
  | cons operation rest ih =>
      have hfirst := hstep operation (List.mem_cons_self ..) s hs
      by_cases hreturns : (operation.perform s).1.returns = true
      · rw [run_of_returns hreturns] at h ⊢
        apply ih (fun next hmem => hstep next (List.mem_cons_of_mem _ hmem))
          (hfirst (h _ (List.mem_cons_self ..)))
        intro reply hmem
        exact h reply (List.mem_cons_of_mem _ hmem)
      · rw [run_of_halted (by simpa using hreturns)] at h ⊢
        exact hfirst (h _ (List.mem_singleton_self _))

end Operation

end IqTransmit
