import IqTransmit.Proofs.Engine.Streaming

/-!
What the worker of a file engine is at, over any output that it was handed: all that its session has
sent is written, but what it is about to write. However it ends, and whether or not a stop joins it,
its outcome accounts for that: it is done just if all was written and flushed.
-/

namespace IqTransmit

/-- An outcome tells whether the transfers of a run were written and flushed, unless it is a
crash. -/
def Outcome.Accounts (handed : Output) (sent : List (List Int8)) (outcome : Outcome) : Prop :=
  outcome ≠ .crashed → (outcome = .done ↔ (handed.sendEach sent).1 = .ok ())

/-- The end of a run that accounts for its transfers is orderly if it is no crash and all of them
are written and flushed. -/
theorem Outcome.Accounts.done_iff {handed : Output} {sent : List (List Int8)} {outcome : Outcome}
    {crashes : Prop} (h : outcome.Accounts handed sent) (hcrashes : outcome = .crashed ↔ crashes) :
    outcome = .done ↔ ¬ crashes ∧ (handed.sendEach sent).1 = .ok () := by
  rw [← hcrashes]
  constructor
  · rintro rfl
    exact ⟨nofun, (h nofun).mp rfl⟩
  · rintro ⟨hnot, hsent⟩
    exact (h hnot).mpr hsent

namespace FileEngine

variable {handed output : Output} {sent before : List (List Int8)} {buffer : List Int8}
variable {e next : FileEngine} {outcome : Outcome} {task : Task} {worker : Worker} {size : Nat}

/-! ## The end of a run -/

theorem closeRun_accounts (h : handed.writeEach sent = (.ok (), e.output)) :
    e.closeRun.2.Accounts handed sent := by
  have hsend : handed.sendEach sent = e.output.flush := by rw [Output.sendEach, h]
  intro _
  rw [hsend]
  simp only [closeRun]
  cases e.output.flush with
  | mk result output =>
      cases result with
      | ok _ => simp
      | error problem => simp [failRun]

theorem writeTransfer_accounts (h : handed.writeEach before = (.ok (), e.output))
    (buffer : List Int8) :
    (∃ output, e.writeTransfer buffer = ({ e with output }, none) ∧
      handed.writeEach (before ++ [buffer]) = (.ok (), output)) ∨
    ∃ after outcome, e.writeTransfer buffer = (after, some outcome) ∧
      outcome.Accounts handed (before ++ [buffer]) := by
  have hconcat := Output.writeEach_concat h buffer
  simp only [writeTransfer]
  cases hwrite : e.output.write buffer with
  | mk result output =>
      rw [hwrite] at hconcat
      cases result with
      | ok _ => exact .inl ⟨output, rfl, hconcat⟩
      | error problem =>
          have hsend : handed.sendEach (before ++ [buffer]) = (.error problem, output) := by
            rw [Output.sendEach, hconcat]
          exact .inr ⟨_, _, rfl, fun _ => by simp [failRun, hsend]⟩

/-! ## The worker -/

/-- What a worker is at that was handed an output: all of the transfers `sent` are written but the
one that it is about to write, and `buffer` is what it works with. -/
inductive Duty (handed : Output) (sent : List (List Int8)) (buffer : List Int8) (output : Output) :
    Worker → Prop where
  | look : handed.writeEach sent = (.ok (), output) →
      Duty handed sent buffer output (.busy (.look buffer))
  | pulling : handed.writeEach sent = (.ok (), output) →
      Duty handed sent buffer output (.pulling buffer)
  | write {before : List (List Int8)} : sent = before ++ [buffer] →
      handed.writeEach before = (.ok (), output) →
      Duty handed sent buffer output (.busy (.write buffer))
  | close : handed.writeEach sent = (.ok (), output) →
      Duty handed sent buffer output (.busy .close)
  | ended {outcome : Outcome} : outcome.Accounts handed sent →
      Duty handed sent buffer output (.ended outcome)

theorem Duty.pulling_eq {held : List Int8} (h : Duty handed sent buffer output (.pulling held)) :
    held = buffer := by
  cases h
  rfl

/-- A task of the worker leads to another. -/
theorem Duty.perform (h : Duty handed sent buffer e.output (.busy task)) :
    ∃ worker, (e.perform task).worker = some worker ∧
      Duty handed sent buffer (e.perform task).output worker := by
  cases h with
  | look hwritten =>
      simp only [FileEngine.perform]
      split
      · exact ⟨_, rfl, .close hwritten⟩
      · exact ⟨_, rfl, .pulling hwritten⟩
  | write hsent hwritten =>
      simp only [FileEngine.perform]
      rcases writeTransfer_accounts hwritten buffer with
        ⟨output, he, hnext⟩ | ⟨after, outcome, he, haccounts⟩
      · rw [he]
        exact ⟨_, rfl, .look (hsent ▸ hnext)⟩
      · rw [he]
        exact ⟨_, rfl, .ended (hsent ▸ haccounts)⟩
  | close hwritten => exact ⟨_, rfl, .ended (closeRun_accounts hwritten)⟩

/-- What is left of a run accounts for all of its transfers. -/
theorem Duty.finishRun (h : Duty handed sent buffer e.output (.busy task)) :
    (e.finishRun task).2.Accounts handed sent := by
  cases h with
  | look hwritten => exact closeRun_accounts hwritten
  | write hsent hwritten =>
      simp only [FileEngine.finishRun]
      rcases writeTransfer_accounts hwritten buffer with
        ⟨output, he, hnext⟩ | ⟨after, outcome, he, haccounts⟩
      · rw [he]
        exact hsent ▸ closeRun_accounts (e := { e with output }) hnext
      · rw [he]
        exact hsent ▸ haccounts
  | close hwritten => exact closeRun_accounts hwritten

/-- After a call of the closure the worker is to write what that has left, if it asked for it. -/
theorem Duty.receive (h : Duty handed sent buffer e.output (.pulling buffer)) (pulled : Pulled) :
    ∃ worker, (e.receive pulled).worker = some worker ∧
      Duty handed (sent ++ pulled.transfer?.toList) (pulled.left buffer) (e.receive pulled).output
        worker := by
  cases h with
  | pulling hwritten =>
      cases pulled with
      | crashed => exact ⟨_, rfl, .ended fun hnot => absurd rfl hnot⟩
      | delivered delivery =>
          obtain ⟨status, bytes⟩ := delivery
          cases status with
          | proceed => exact ⟨_, rfl, .write rfl hwritten⟩
          | terminate =>
              have hsame : sent ++ (Pulled.delivered ⟨.terminate, bytes⟩).transfer?.toList = sent :=
                List.append_nil sent
              rw [hsame]
              exact ⟨_, rfl, .close hwritten⟩

/-- The parts of an engine by who has its writer. Without a worker the output is as it was when the
last one was taken leave of, or at first. -/
inductive Keeping (handed : Output) (sent : List (List Int8)) (buffer : List Int8)
    (output : Output) : Bool → Option Worker → Prop where
  | resting (hasWriter : Bool) : output = handed →
      Keeping handed sent buffer output hasWriter none
  | working {worker : Worker} : Duty handed sent buffer output worker →
      Keeping handed sent buffer output false (some worker)

/-- An engine of some transfer size whose parts are kept so. -/
structure Keeps (handed : Output) (size : Nat) (sent : List (List Int8)) (buffer : List Int8)
    (e : FileEngine) : Prop where
  transferSize_eq : e.transferSize = size
  keeping : Keeping handed sent buffer e.output e.hasWriter e.worker

theorem Keeps.duty (h : Keeps handed size sent buffer e) (hworker : e.worker = some worker) :
    e.hasWriter = false ∧ Duty handed sent buffer e.output worker := by
  have hkeeping := h.keeping
  rw [hworker] at hkeeping
  generalize e.hasWriter = hasWriter at hkeeping ⊢
  cases hkeeping with
  | working hduty => exact ⟨rfl, hduty⟩

theorem Keeps.output_eq (h : Keeps handed size sent buffer e) (hworker : e.worker = none) :
    e.output = handed := by
  have hkeeping := h.keeping
  rw [hworker] at hkeeping
  generalize e.hasWriter = hasWriter at hkeeping
  cases hkeeping with
  | resting _ heq => exact heq

theorem Keeps.of_duty (hsize : next.transferSize = size) (hwriter : next.hasWriter = false)
    (hworker : next.worker = some worker) (hduty : Duty handed sent buffer next.output worker) :
    Keeps handed size sent buffer next := by
  refine ⟨hsize, ?_⟩
  rw [hwriter, hworker]
  exact .working hduty

theorem keeps_of_no_worker (hsize : e.transferSize = size) (hworker : e.worker = none) :
    Keeps e.output size sent buffer e := by
  refine ⟨hsize, ?_⟩
  rw [hworker]
  exact .resting _ rfl

/-- What is left of an engine once its worker is joined: an orderly end gives the writer back, and
any other is an error. -/
structure Released (orderly : Prop) (size : Nat) (result : Except String Unit)
    (next : FileEngine) : Prop where
  worker_eq : next.worker = none
  transferSize_eq : next.transferSize = size
  result_iff : result = .ok () ↔ orderly
  hasWriter_iff : next.hasWriter = true ↔ orderly

theorem Released.congr {orderly orderly' : Prop} {result : Except String Unit}
    (h : Released orderly size result next) (hiff : orderly ↔ orderly') :
    Released orderly' size result next := by
  rwa [← propext hiff]

theorem released_of_join (hwriter : e.hasWriter = false) (outcome : Outcome) :
    ∃ result next, e.join outcome = .finish result next ∧
      Released (outcome = .done) e.transferSize result next := by
  cases outcome with
  | done => exact ⟨_, _, rfl, rfl, rfl, by simp, by simp⟩
  | failed problem => exact ⟨_, _, rfl, rfl, rfl, by simp, by simp [hwriter]⟩
  | crashed => exact ⟨_, _, rfl, rfl, rfl, by simp, by simp [hwriter]⟩

theorem perform_hasWriter (e : FileEngine) (task : Task) :
    (e.perform task).hasWriter = e.hasWriter := by
  cases task with
  | look buffer => rfl
  | write buffer =>
      simp only [perform]
      rcases e.writeTransfer_over buffer with ⟨output, he⟩ | ⟨after, outcome, he, hover⟩
      · rw [he]
      · rw [he]
        exact hover.hasWriter_eq
  | close => exact e.closeRun_over.hasWriter_eq

theorem receive_hasWriter (e : FileEngine) (pulled : Pulled) :
    (e.receive pulled).hasWriter = e.hasWriter := by
  simp only [receive]
  split <;> rfl

theorem receive_transferSize (e : FileEngine) (pulled : Pulled) :
    (e.receive pulled).transferSize = e.transferSize := by
  simp only [receive]
  split <;> rfl

end FileEngine

namespace FileHistory

variable {h : FileHistory} {α : Type} {action : FileEngine → Action FileEngine α}

/-- What an action of the engine comes to, against the closure of the newest session. -/
def result (h : FileHistory) (action : FileEngine → Action FileEngine α) : Option α :=
  match (action h.engine).run Closure.pull h.closure with
  | .ok (result, _) _ => some result
  | .error _ _ => none

/-- An action comes to a result and an engine, with so many calls of the closure of the session. -/
def Comes (h : FileHistory) (action : FileEngine → Action FileEngine α) (a : α)
    (next : FileEngine) (calls : Nat) : Prop :=
  (action h.engine).run Closure.pull h.closure = .ok (a, next) ⟨h.session.script.answer, calls⟩

theorem Comes.result_eq {a : α} {next : FileEngine} {calls : Nat}
    (hc : h.Comes action a next calls) : h.result action = some a := by
  rw [Comes] at hc
  simp only [result, hc]

theorem Comes.act_eq {a : α} {next : FileEngine} {calls : Nat}
    (hc : h.Comes action a next calls) :
    h.act action = { h with engine := next, session.calls := calls } := by
  rw [Comes, closure] at hc
  simp only [act, hc]

theorem comes_of_finish {a : α} {next : FileEngine} (he : action h.engine = .finish a next) :
    h.Comes action a next h.session.calls := by
  rw [Comes, he]
  rfl

theorem comes_of_pull {a : α} {next : FileEngine} {buffer : List Int8}
    {resume : Pulled → Action FileEngine α} (he : action h.engine = .pull buffer resume)
    (hresume : resume (h.session.script.answer h.session.calls buffer) = .finish a next) :
    h.Comes action a next (h.session.calls + 1) := by
  rw [Comes, he, Action.run]
  simp only [Closure.pull, closure, hresume]
  rfl

/-- An action that leaves the engine leaves all. -/
theorem act_of_finish_same {a : α} (he : action h.engine = .finish a h.engine) :
    h.act action = h :=
  (comes_of_finish he).act_eq

theorem Comes.answer_eq {answer : Except String Unit} {next : FileEngine} {calls : Nat}
    (hc : h.Comes FileEngine.stop answer next calls) : h.answer .stop = some answer := by
  rw [Comes] at hc
  simp only [FileHistory.answer, hc]

open FileEngine (Keeps Duty Released Crashes)

variable {handed : Output} {size : Nat} {worker : Worker}

/-- The parts of the engine are kept as its newest session has it. -/
abbrev Kept (h : FileHistory) (handed : Output) (size : Nat) : Prop :=
  Keeps handed size (h.session.transfers size) (h.session.script.buffer size h.session.calls)
    h.engine

/-- A stop that joins a run which has ended so leaves its engine accordingly. -/
theorem comes_of_join (after : FileEngine) (outcome : Outcome) (calls : Nat)
    (hcomes : ∀ {result next}, after.join outcome = .finish result next →
      h.Comes FileEngine.stop result next calls)
    (hwriter : after.hasWriter = false) (hsize : after.transferSize = size)
    (haccounts : outcome.Accounts handed (h.session.script.transfers size calls))
    (hcrashes : outcome = .crashed ↔ h.engine.Crashes h.closure) :
    ∃ result next calls, h.Comes FileEngine.stop result next calls ∧
      Released (¬ h.engine.Crashes h.closure ∧
        (handed.sendEach (h.session.script.transfers size calls)).1 = .ok ()) size result next := by
  obtain ⟨result, next, he, hreleased⟩ := FileEngine.released_of_join hwriter outcome
  rw [hsize] at hreleased
  exact ⟨result, next, calls, hcomes he, hreleased.congr (haccounts.done_iff hcrashes)⟩

/-- A stop ends the worker, which gives the writer back unless it crashes or meets an error in what
its session has sent by then. -/
theorem Kept.stop_comes (hk : h.Kept handed size) (hworker : h.engine.worker = some worker) :
    ∃ result next calls, h.Comes FileEngine.stop result next calls ∧
      Released (¬ h.engine.Crashes h.closure ∧
        (handed.sendEach (h.session.script.transfers size calls)).1 = .ok ()) size result next := by
  obtain ⟨hwriter, hduty⟩ := hk.duty hworker
  have hsize := hk.transferSize_eq
  cases worker with
  | ended outcome =>
      have hstop := FileEngine.stop_of_ended hworker
      cases hduty with
      | ended haccounts =>
          exact comes_of_join h.engine.told outcome _ (fun he => comes_of_finish (hstop.trans he))
            hwriter hsize haccounts (by simp [Crashes, hworker])
  | busy task =>
      have hstop := FileEngine.stop_of_busy hworker
      have hover := FileEngine.finishRun_over h.engine.told task
      exact comes_of_join _ _ _ (fun he => comes_of_finish (hstop.trans he))
        (hover.hasWriter_eq.trans hwriter) (hover.transferSize_eq.trans hsize)
        (Duty.finishRun (e := h.engine.told) hduty) (by simp [Crashes, hworker, hover.not_crashed])
  | pulling buffer =>
      have hstop := FileEngine.stop_of_pulling hworker
      obtain rfl := hduty.pulling_eq
      -- the call of the closure under way decides how the worker ends
      cases hpulled : h.session.script.answer h.session.calls
          (h.session.script.buffer size h.session.calls) with
      | crashed =>
          refine comes_of_join { h.engine.told with output := h.engine.told.output.abandon }
            .crashed (h.session.calls + 1) (fun he => ?_) hwriter hsize
            (fun hnot => absurd rfl hnot) (iff_of_true rfl (.inr ⟨_, hworker, hpulled⟩))
          refine comes_of_pull hstop ?_
          rw [hpulled]
          exact he
      | delivered delivery =>
          obtain ⟨task, htask⟩ := FileEngine.afterPull_delivered delivery
          obtain ⟨_, hnext, hreceived⟩ :=
            Duty.receive (e := h.engine.told) hduty (.delivered delivery)
          simp only [FileEngine.receive, htask] at hnext hreceived
          cases hnext
          have hover := FileEngine.finishRun_over h.engine.told task
          have hsent : h.session.script.transfers size (h.session.calls + 1) =
              h.session.transfers size ++ (Pulled.delivered delivery).transfer?.toList := by
            rw [DrainScript.transfers, hpulled, Session.transfers]
          refine comes_of_join _ _ (h.session.calls + 1) (fun he => ?_)
            (hover.hasWriter_eq.trans hwriter) (hover.transferSize_eq.trans hsize)
            (hsent ▸ Duty.finishRun (e := h.engine.told) hreceived) ?_
          · refine comes_of_pull hstop ?_
            rw [hpulled]
            simp only [htask]
            exact he
          · simp [Crashes, hworker, hover.not_crashed, closure, hpulled]

theorem comes_of_no_worker (hworker : h.engine.worker = none) :
    h.Comes FileEngine.stop (.ok ()) h.engine h.session.calls :=
  comes_of_finish (by simp only [FileEngine.stop, hworker])

/-- After any stop there is no worker. -/
theorem Kept.stop_joins (hk : h.Kept handed size) :
    ∃ result next calls, h.Comes FileEngine.stop result next calls ∧ next.worker = none ∧
      next.transferSize = size := by
  cases hworker : h.engine.worker with
  | none => exact ⟨_, _, _, comes_of_no_worker hworker, hworker, hk.transferSize_eq⟩
  | some worker =>
      obtain ⟨result, next, calls, hcomes, hreleased⟩ := hk.stop_comes hworker
      exact ⟨result, next, calls, hcomes, hreleased.worker_eq, hreleased.transferSize_eq⟩

/-- A step of the worker leads to another duty. -/
theorem Kept.step (hk : h.Kept handed size) : (h.perform .step).Kept handed size := by
  have hsize := hk.transferSize_eq
  simp only [perform]
  cases hworker : h.engine.worker with
  | none =>
      rw [act_of_finish_same (by rw [FileEngine.advance, hworker])]
      exact hk
  | some worker =>
      obtain ⟨hwriter, hduty⟩ := hk.duty hworker
      cases worker with
      | ended outcome =>
          rw [act_of_finish_same (by rw [FileEngine.advance, hworker])]
          exact hk
      | busy task =>
          have he : h.engine.advance = .finish () (h.engine.perform task) := by
            rw [FileEngine.advance, hworker]
          obtain ⟨worker, hnext, hduty⟩ := hduty.perform
          rw [(comes_of_finish he).act_eq]
          exact .of_duty ((h.engine.perform_spared task).transferSize_eq.trans hsize)
            ((h.engine.perform_hasWriter task).trans hwriter) hnext hduty
      | pulling buffer =>
          have he : h.engine.advance =
              .pull buffer fun pulled => .finish () (h.engine.receive pulled) := by
            rw [FileEngine.advance, hworker]
          obtain rfl := hduty.pulling_eq
          obtain ⟨worker, hnext, hduty⟩ := hduty.receive
            (h.session.script.answer h.session.calls (h.session.script.buffer size h.session.calls))
          rw [(comes_of_pull he rfl).act_eq]
          exact .of_duty ((h.engine.receive_transferSize _).trans hsize)
            ((h.engine.receive_hasWriter _).trans hwriter) hnext hduty

end FileHistory

end IqTransmit
