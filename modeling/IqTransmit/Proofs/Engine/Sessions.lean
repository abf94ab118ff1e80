import IqTransmit.Engine.Closure
import IqTransmit.Proofs.Engine.File

/-!
Sessions of a file engine, one after another over one output, each with a drain closure of its own.
What the device has recorded are the buffers of the calls that asked for a transfer, in order, as
far as it had room; only the one that the worker holds is still to come.
-/

namespace IqTransmit

/-- The buffer of a call of a drain closure that is to be sent. -/
def Pulled.transfer? : Pulled → Option (List Int8)
  | .delivered delivery => delivery.transfer?
  | .crashed => none

/-- What a call of a drain closure leaves in its buffer. -/
def Pulled.left (buffer : List Int8) : Pulled → List Int8
  | .delivered delivery => delivery.bytes
  | .crashed => buffer

/-- What a drain closure does, by the number of its calls and the buffer that it is given, of which
it may change any bytes but not their number. -/
structure DrainScript where
  answer : Nat → List Int8 → Pulled
  length_eq : ∀ {calls : Nat} {buffer : List Int8} {delivery : Delivery},
    answer calls buffer = .delivered delivery → delivery.bytes.length = buffer.length

namespace DrainScript

variable {script : DrainScript} {size : Nat}

/-- The buffer after a number of calls: zeros at first, and then what each call leaves. -/
def buffer (script : DrainScript) (size : Nat) : Nat → List Int8
  | 0 => List.replicate size 0
  | calls + 1 =>
      (script.answer calls (script.buffer size calls)).left (script.buffer size calls)

/-- The whole buffers of the calls that asked for a transfer, in order. -/
def transfers (script : DrainScript) (size : Nat) : Nat → List (List Int8)
  | 0 => []
  | calls + 1 => script.transfers size calls ++
      (script.answer calls (script.buffer size calls)).transfer?.toList

theorem buffer_length (script : DrainScript) (size calls : Nat) :
    (script.buffer size calls).length = size := by
  induction calls with
  | zero => exact List.length_replicate
  | succ calls ih =>
      simp only [buffer]
      cases he : script.answer calls (script.buffer size calls) with
      | delivered delivery => exact (script.length_eq he).trans ih
      | crashed => exact ih

theorem transfers_length (script : DrainScript) (size calls : Nat) :
    ∀ transfer ∈ script.transfers size calls, transfer.length = size := by
  induction calls with
  | zero => simp [transfers]
  | succ calls ih =>
      intro transfer hmem
      simp only [transfers] at hmem
      rcases List.mem_append.mp hmem with hold | hnew
      · exact ih transfer hold
      · have hsome := Option.mem_toList.mp hnew
        cases he : script.answer calls (script.buffer size calls) with
        | delivered delivery =>
            rw [he] at hsome
            obtain ⟨status, bytes⟩ := delivery
            cases status with
            | proceed =>
                cases hsome
                exact (script.length_eq he).trans (script.buffer_length size calls)
            | terminate => cases hsome
        | crashed =>
            rw [he] at hsome
            cases hsome

/-- A closure that only crashes. -/
def crashing : DrainScript where
  answer _ _ := .crashed
  length_eq := by
    intro _ _ _ he
    cases he

end DrainScript

/-- A session: its closure, and how often that was called. -/
structure Session where
  script : DrainScript
  calls : Nat := 0

/-- The buffers of the calls of a session that asked for a transfer. -/
def Session.transfers (size : Nat) (session : Session) : List (List Int8) :=
  session.script.transfers size session.calls

/-- A file engine with its newest session and the ones before that, the newest first. Where it was
not started yet a closure that crashes stands for the newest session, and there is no worker that
could call it. -/
structure FileHistory where
  engine : FileEngine
  session : Session := { script := .crashing }
  earlier : List Session := []

/-- A call on a file engine, or a step of its worker. -/
inductive FileCall where
  | start (script : DrainScript)
  | step
  | stop

namespace FileHistory

/-- An action of the engine, against the closure of the newest session. -/
def act {α : Type} (action : FileEngine → Action FileEngine α) (h : FileHistory) : FileHistory :=
  match (action h.engine).run Closure.pull ⟨h.session.script.answer, h.session.calls⟩ with
  | .ok (_, engine) closure => { h with engine, session.calls := closure.calls }
  | .error _ closure => { h with session.calls := closure.calls }

def perform (h : FileHistory) : FileCall → FileHistory
  | .start script =>
      match h.engine.start with
      | (.ok (), engine) => ⟨engine, { script }, h.session :: h.earlier⟩
      | (.error _, engine) => { h with engine }
  | .step => h.act FileEngine.advance
  | .stop => h.act FileEngine.stop

def run (h : FileHistory) (calls : List FileCall) : FileHistory := calls.foldl perform h

/-- The buffers of all calls that asked for a transfer, session after session. -/
def transfers (h : FileHistory) : List (List Int8) :=
  (h.session :: h.earlier).reverse.flatMap (Session.transfers h.engine.transferSize)

/-- The buffer of the newest session. -/
def buffer (h : FileHistory) : List Int8 :=
  h.session.script.buffer h.engine.transferSize h.session.calls

end FileHistory

/-! ## What the device holds -/

variable {origin : Device} {output : Output} {log : List Notice} {sent : List (List Int8)}

/-- A device that was `origin` at first has recorded all of the transfers `sent`. -/
structure Wrote (origin : Device) (output : Output) (sent : List (List Int8)) : Prop where
  capacity_eq : output.capacity = none
  recorded : origin.Recorded output.device sent.flatten
  fitting_eq : origin.fitting sent.flatten = sent.flatten

/-- It has recorded what it had room for, and unless an error was reported that is all. -/
structure Limited (origin : Device) (output : Output) (log : List Notice)
    (sent : List (List Int8)) : Prop where
  recorded : origin.Recorded output.device (origin.fitting sent.flatten)
  fitting_eq : (∀ problem, .writeFailed problem ∉ log) → origin.fitting sent.flatten = sent.flatten

theorem Wrote.limited (h : Wrote origin output sent) (log : List Notice) :
    Limited origin output log sent :=
  ⟨h.fitting_eq.symm ▸ h.recorded, fun _ => h.fitting_eq⟩

/-- One transfer more is recorded in full, or the write fails and as much of it is as fits. -/
theorem Wrote.write (hsteady : origin.Steady) (h : Wrote origin output sent)
    (buffer : List Int8) :
    (∃ next, output.write buffer = (.ok (), next) ∧ Wrote origin next (sent ++ [buffer])) ∨
      ∃ problem next, output.write buffer = (.error problem, next) ∧ next.capacity = none ∧
        origin.Recorded next.device (origin.fitting (sent ++ [buffer]).flatten) := by
  have hwrite : output.write buffer = output.writeThrough buffer := by
    simp only [Output.write, h.capacity_eq]
  have hflat : (sent ++ [buffer]).flatten = sent.flatten ++ buffer := by simp
  have hfitting := h.recorded.fitting_append h.fitting_eq buffer
  -- all before is recorded, so that what the device now takes is what it can of the whole
  obtain ⟨hrecorded, hok⟩ :=
    (h.recorded.steady hsteady).writeAll "failed to write whole buffer" buffer
  have hnext := h.recorded.trans hrecorded
  rw [← hfitting, ← hflat] at hnext
  rw [hwrite, Output.writeThrough]
  cases he : output.device.writeAll "failed to write whole buffer" buffer with
  | mk result device =>
      rw [he] at hnext hok
      cases result with
      | ok _ =>
          have hall : origin.fitting (sent ++ [buffer]).flatten = (sent ++ [buffer]).flatten := by
            rw [hflat, hfitting, hok.mp rfl]
          rw [hall] at hnext
          exact .inl ⟨_, rfl, h.capacity_eq, hnext, hall⟩
      | error problem => exact .inr ⟨problem, _, rfl, h.capacity_eq, hnext⟩

namespace FileEngine

variable {e e' : FileEngine} {outcome : Outcome}

/-- The transfer that the worker holds, and has not begun to write. -/
def inHand (e : FileEngine) : List (List Int8) :=
  match e.worker with
  | some (.busy (.write buffer)) => [buffer]
  | _ => []

/-! ## The end of a run -/

/-- How a run of `e` ends, as `e'`. It was orderly only if all was recorded, and it keeps neither
the writer nor anything else. -/
structure RunEnd (origin : Device) (sent : List (List Int8)) (e e' : FileEngine)
    (outcome : Outcome) : Prop where
  limited : Limited origin e'.output e'.log sent
  wrote : outcome = .done → Wrote origin e'.output sent
  hasWriter_eq : e'.hasWriter = e.hasWriter
  transferSize_eq : e'.transferSize = e.transferSize

theorem failRun_end (hcapacity : e.output.capacity = none)
    (hrecorded : origin.Recorded e.output.device (origin.fitting sent.flatten))
    (problem : String) : RunEnd origin sent e (e.failRun problem).1 (e.failRun problem).2 := by
  have habandon : e.output.abandon = e.output := by simp only [Output.abandon, hcapacity]
  refine ⟨⟨?_, ?_⟩, nofun, rfl, rfl⟩
  · simp only [failRun, habandon]
    exact hrecorded
  · intro hnone
    exact absurd List.mem_cons_self (hnone problem)

theorem writeTransfer_cases (hsteady : origin.Steady) (h : Wrote origin e.output sent)
    (buffer : List Int8) :
    (∃ output, e.writeTransfer buffer = ({ e with output }, none) ∧
      Wrote origin output (sent ++ [buffer])) ∨
    ∃ e' outcome, e.writeTransfer buffer = (e', some outcome) ∧
      RunEnd origin (sent ++ [buffer]) e e' outcome := by
  simp only [writeTransfer]
  rcases h.write hsteady buffer with ⟨next, he, hnext⟩ | ⟨problem, next, he, hcapacity, hnext⟩
  · rw [he]
    exact .inl ⟨next, rfl, hnext⟩
  · rw [he]
    have hfail := failRun_end (e := { e with output := next }) hcapacity hnext problem
    exact .inr ⟨_, _, rfl, ⟨hfail.limited, hfail.wrote, hfail.hasWriter_eq, hfail.transferSize_eq⟩⟩

theorem closeRun_end (h : Wrote origin e.output sent) :
    RunEnd origin sent e e.closeRun.1 e.closeRun.2 := by
  have hflush : e.output.flush = (e.output.device.flush, e.output) := by
    simp only [Output.flush, h.capacity_eq]
  simp only [closeRun, hflush]
  cases e.output.device.flush with
  | ok _ => exact ⟨h.limited _, fun _ => h, rfl, rfl⟩
  | error problem =>
      exact failRun_end h.capacity_eq (h.limited e.log).recorded problem

/-! ## The stages of an engine -/

/-- What an engine is at, by whether it has its writer and by its worker, where `sent` are the
buffers of the calls that asked for a transfer, and `buffer` is what the last call has left. -/
inductive Stage (origin : Device) (sent : List (List Int8)) (buffer : List Int8) (output : Output)
    (log : List Notice) : Bool → Option Worker → Prop where
  | idle : Wrote origin output sent → Stage origin sent buffer output log true none
  | lost : Limited origin output log sent → Stage origin sent buffer output log false none
  | look : Wrote origin output sent →
      Stage origin sent buffer output log false (some (.busy (.look buffer)))
  | pulling : Wrote origin output sent →
      Stage origin sent buffer output log false (some (.pulling buffer))
  | write {before : List (List Int8)} : sent = before ++ [buffer] → Wrote origin output before →
      Stage origin sent buffer output log false (some (.busy (.write buffer)))
  | close : Wrote origin output sent →
      Stage origin sent buffer output log false (some (.busy .close))
  | ended {outcome : Outcome} : Limited origin output log sent →
      (outcome = .done → Wrote origin output sent) →
      Stage origin sent buffer output log false (some (.ended outcome))

/-- An engine of some transfer size at one of these stages. -/
structure At (origin : Device) (size : Nat) (sent : List (List Int8)) (buffer : List Int8)
    (e : FileEngine) : Prop where
  transferSize_eq : e.transferSize = size
  stage : Stage origin sent buffer e.output e.log e.hasWriter e.worker

variable {size : Nat} {buffer : List Int8}

/-- All transfers but the one in hand are recorded as far as there was room. -/
theorem At.limited (h : At origin size sent buffer e) :
    ∃ written, sent = written ++ e.inHand ∧ Limited origin e.output e.log written := by
  have hstage := h.stage
  simp only [inHand]
  generalize e.hasWriter = hasWriter at hstage
  generalize e.worker = worker at hstage ⊢
  cases hstage with
  | idle hwrote | look hwrote | pulling hwrote | close hwrote =>
      exact ⟨sent, (List.append_nil _).symm, hwrote.limited e.log⟩
  | lost hlimited | ended hlimited _ => exact ⟨sent, (List.append_nil _).symm, hlimited⟩
  | write hsent hwrote => exact ⟨_, hsent, hwrote.limited e.log⟩

theorem RunEnd.at_ended (h : RunEnd origin sent e e' outcome) (hwriter : e.hasWriter = false)
    (hsize : e.transferSize = size) (buffer : List Int8) :
    At origin size sent buffer { e' with worker := some (.ended outcome) } := by
  refine ⟨h.transferSize_eq.trans hsize, ?_⟩
  simp only [h.hasWriter_eq, hwriter]
  exact .ended h.limited h.wrote

/-- A task of the worker leads from one stage to another. -/
theorem At.perform (hsteady : origin.Steady) (h : At origin size sent buffer e) {task : Task}
    (hworker : e.worker = some (.busy task)) : At origin size sent buffer (e.perform task) := by
  obtain ⟨hsize, hstage⟩ := h
  rw [hworker] at hstage
  generalize hwriter : e.hasWriter = hasWriter at hstage
  cases hstage with
  | look hwrote =>
      simp only [FileEngine.perform]
      split
      · exact ⟨hsize, hwriter ▸ .close hwrote⟩
      · exact ⟨hsize, hwriter ▸ .pulling hwrote⟩
  | write hsent hwrote =>
      simp only [FileEngine.perform]
      rcases writeTransfer_cases hsteady hwrote buffer with
        ⟨output, he, hnext⟩ | ⟨e', outcome, he, hend⟩
      · rw [he]
        exact ⟨hsize, hwriter ▸ .look (hsent ▸ hnext)⟩
      · rw [he]
        exact (hsent ▸ hend).at_ended hwriter hsize buffer
  | close hwrote =>
      simp only [FileEngine.perform]
      exact (closeRun_end hwrote).at_ended hwriter hsize buffer

variable {hasWriter : Bool}

theorem Stage.hasWriter_eq {worker : Worker}
    (h : Stage origin sent buffer output log hasWriter (some worker)) : hasWriter = false := by
  cases h <;> rfl

theorem Stage.pulling_eq {held : List Int8}
    (h : Stage origin sent buffer output log hasWriter (some (.pulling held))) : held = buffer := by
  cases h
  rfl

theorem Stage.ended_cases
    (h : Stage origin sent buffer output log hasWriter (some (.ended outcome))) :
    Limited origin output log sent ∧ (outcome = .done → Wrote origin output sent) := by
  cases h with
  | ended hlimited hwrote => exact ⟨hlimited, hwrote⟩

/-- What is left of a run ends it. -/
theorem Stage.finishRun (hsteady : origin.Steady) {task : Task}
    (h : Stage origin sent buffer e.output e.log e.hasWriter (some (.busy task))) :
    RunEnd origin sent e (e.finishRun task).1 (e.finishRun task).2 := by
  generalize e.hasWriter = hasWriter at h
  cases h with
  | look hwrote => exact closeRun_end hwrote
  | write hsent hwrote =>
      simp only [FileEngine.finishRun]
      rcases writeTransfer_cases hsteady hwrote buffer with
        ⟨output, he, hnext⟩ | ⟨e', outcome, he, hend⟩
      · rw [he]
        have hclosed := closeRun_end (e := { e with output }) (hsent ▸ hnext)
        exact ⟨hclosed.limited, hclosed.wrote, hclosed.hasWriter_eq, hclosed.transferSize_eq⟩
      · rw [he]
        exact hsent ▸ hend
  | close hwrote => exact closeRun_end hwrote

/-- After a call of its closure a worker is to write what that has left, if it asked for it. -/
theorem At.receive (h : At origin size sent buffer e) (hworker : e.worker = some (.pulling buffer))
    (pulled : Pulled) :
    At origin size (sent ++ pulled.transfer?.toList) (pulled.left buffer) (e.receive pulled) := by
  obtain ⟨hsize, hstage⟩ := h
  rw [hworker] at hstage
  generalize hwriter : e.hasWriter = hasWriter at hstage
  cases hstage with
  | pulling hwrote =>
      have habandon : e.output.abandon = e.output := by
        simp only [Output.abandon, hwrote.capacity_eq]
      cases pulled with
      | crashed =>
          simp only [FileEngine.receive, afterPull, habandon]
          refine ⟨hsize, hwriter ▸ .ended ?_ Outcome.noConfusion⟩
          simpa [Pulled.transfer?] using hwrote.limited e.log
      | delivered delivery =>
          obtain ⟨status, bytes⟩ := delivery
          cases status with
          | proceed => exact ⟨hsize, hwriter ▸ .write rfl hwrote⟩
          | terminate =>
              have hsame : sent ++ (Pulled.delivered ⟨.terminate, bytes⟩).transfer?.toList = sent :=
                List.append_nil sent
              rw [hsame]
              exact ⟨hsize, hwriter ▸ .close hwrote⟩

/-- Taking leave of a worker gives the writer back after an orderly end only. -/
theorem RunEnd.join (h : RunEnd origin sent e e' outcome) (hwriter : e.hasWriter = false)
    (hsize : e.transferSize = size) (buffer : List Int8) :
    ∃ result next, e'.join outcome = .finish result next ∧ At origin size sent buffer next := by
  have hsize' := h.transferSize_eq.trans hsize
  have hlost : Stage origin sent buffer e'.output e'.log e'.hasWriter none := by
    rw [h.hasWriter_eq, hwriter]
    exact .lost h.limited
  cases outcome with
  | done => exact ⟨_, _, rfl, hsize', .idle (h.wrote rfl)⟩
  | failed problem => exact ⟨_, _, rfl, hsize', hlost⟩
  | crashed => exact ⟨_, _, rfl, hsize', hlost⟩

/-! ## Steps and stops -/

/-- An action that calls the closure at most once, and leads to another stage. -/
def Leads {α : Type} (origin : Device) (size : Nat) (sent : List (List Int8)) (buffer : List Int8)
    (action : Action FileEngine α) : Prop :=
  (∃ result next, action = .finish result next ∧ At origin size sent buffer next) ∨
    ∃ resume, action = .pull buffer resume ∧
      ∀ pulled : Pulled, ∃ result next, resume pulled = .finish result next ∧
        At origin size (sent ++ pulled.transfer?.toList) (pulled.left buffer) next

theorem At.advance (hsteady : origin.Steady) (h : At origin size sent buffer e) :
    Leads origin size sent buffer e.advance := by
  have hstage := h.stage
  simp only [FileEngine.advance]
  cases hworker : e.worker with
  | none => exact .inl ⟨(), e, rfl, h⟩
  | some worker =>
      cases worker with
      | ended outcome => exact .inl ⟨(), e, rfl, h⟩
      | busy task => exact .inl ⟨(), _, rfl, h.perform hsteady hworker⟩
      | pulling held =>
          rw [hworker] at hstage
          obtain rfl := hstage.pulling_eq
          exact .inr ⟨_, rfl, fun pulled => ⟨(), _, rfl, h.receive hworker pulled⟩⟩

/-- An engine that was told to stop. -/
def told (e : FileEngine) : FileEngine := { e with stopRequested := true }

theorem stop_of_ended (hworker : e.worker = some (.ended outcome)) :
    e.stop = e.told.join outcome := by
  simp only [FileEngine.stop, hworker, told]

theorem stop_of_busy {task : Task} (hworker : e.worker = some (.busy task)) :
    e.stop = (e.told.finishRun task).1.join (e.told.finishRun task).2 := by
  simp only [FileEngine.stop, hworker, told]

theorem stop_of_pulling (hworker : e.worker = some (.pulling buffer)) :
    e.stop = .pull buffer fun pulled =>
      match afterPull pulled with
      | none => { e.told with output := e.told.output.abandon }.join .crashed
      | some task => (e.told.finishRun task).1.join (e.told.finishRun task).2 := by
  cases e
  cases hworker
  rfl

theorem At.stop (hsteady : origin.Steady) (h : At origin size sent buffer e) :
    Leads origin size sent buffer e.stop := by
  have hstage := h.stage
  have hsize : e.told.transferSize = size := h.transferSize_eq
  cases hworker : e.worker with
  | none =>
      have hidle : e.stop = .finish (.ok ()) e := by simp only [FileEngine.stop, hworker]
      exact .inl ⟨.ok (), e, hidle, h⟩
  | some worker =>
      rw [hworker] at hstage
      have hwriter : e.told.hasWriter = false := hstage.hasWriter_eq
      cases worker with
      | ended outcome =>
          obtain ⟨hlimited, hwrote⟩ := hstage.ended_cases
          have hend : RunEnd origin sent e.told e.told outcome := ⟨hlimited, hwrote, rfl, rfl⟩
          rw [stop_of_ended hworker]
          exact .inl (hend.join hwriter hsize buffer)
      | busy task =>
          have hend := Stage.finishRun (e := e.told) hsteady hstage
          rw [stop_of_busy hworker]
          exact .inl (hend.join hwriter hsize buffer)
      | pulling held =>
          obtain rfl := hstage.pulling_eq
          refine .inr ⟨_, stop_of_pulling hworker, ?_⟩
          intro pulled
          -- the stop does to the engine what a step does, and then ends the run
          have hnext : At origin size (sent ++ pulled.transfer?.toList) (pulled.left held)
              (e.told.receive pulled) :=
            At.receive (e := e.told) ⟨h.transferSize_eq, h.stage⟩ hworker pulled
          have hstage' := hnext.stage
          simp only [FileEngine.receive] at hstage'
          cases htask : afterPull pulled with
          | none =>
              rw [htask] at hstage'
              obtain ⟨hlimited, hwrote⟩ := hstage'.ended_cases
              have hend : RunEnd origin (sent ++ pulled.transfer?.toList) e.told
                  { e.told with output := e.told.output.abandon } .crashed :=
                ⟨hlimited, hwrote, rfl, rfl⟩
              exact hend.join hwriter hsize _
          | some task =>
              rw [htask] at hstage'
              have hend := Stage.finishRun (e := e.told) hsteady hstage'
              exact hend.join hwriter hsize _

/-- A start is refused and changes nothing, or hands the writer to a worker with silence in its
buffer. -/
theorem At.start (h : At origin size sent buffer e) :
    (∃ problem, e.start = (.error problem, e)) ∨
      ∃ e', e.start = (.ok (), e') ∧ At origin size sent (List.replicate size 0) e' := by
  have hstage := h.stage
  simp only [FileEngine.start]
  cases hworker : e.worker with
  | some worker => exact .inl ⟨_, rfl⟩
  | none =>
      cases hwriter : e.hasWriter with
      | false => exact .inl ⟨_, rfl⟩
      | true =>
          rw [hworker, hwriter] at hstage
          cases hstage with
          | idle hwrote =>
              have habandon : e.output.abandon = e.output := by
                simp only [Output.abandon, hwrote.capacity_eq]
              right
              simp only [if_true, h.transferSize_eq, habandon]
              by_cases hroom : size ≤ maxStore
              · rw [if_pos hroom]
                exact ⟨_, rfl, rfl, .look hwrote⟩
              · rw [if_neg hroom]
                exact ⟨_, rfl, rfl, .ended (hwrote.limited e.log) nofun⟩

end FileEngine

namespace FileHistory

open FileEngine (At Leads)

variable {size : Nat} {h : FileHistory}

/-- An engine at some stage of its newest session. -/
structure Sound (origin : Device) (size : Nat) (h : FileHistory) : Prop where
  engine_at : At origin size h.transfers h.buffer h.engine

theorem transfers_eq (h : FileHistory) :
    h.transfers = h.earlier.reverse.flatMap (Session.transfers h.engine.transferSize) ++
      h.session.transfers h.engine.transferSize := by
  simp [transfers]

theorem Sound.act {α : Type} {action : FileEngine → Action FileEngine α} (hs : h.Sound origin size)
    (hleads : Leads origin size h.transfers h.buffer (action h.engine)) :
    (h.act action).Sound origin size := by
  have hsize {next : FileEngine} {sent : List (List Int8)} {buffer : List Int8}
      (hnext : At origin size sent buffer next) : next.transferSize = h.engine.transferSize :=
    hnext.transferSize_eq.trans hs.engine_at.transferSize_eq.symm
  rcases hleads with ⟨result, next, he, hnext⟩ | ⟨resume, he, hnext⟩
  · simp only [FileHistory.act, he, Action.run]
    constructor
    simp only [transfers, buffer, hsize hnext] at hnext ⊢
    exact hnext
  · obtain ⟨result, next, hresume, hnext⟩ :=
      hnext (h.session.script.answer h.session.calls h.buffer)
    simp only [FileHistory.act, he, Action.run, Closure.pull, hresume]
    constructor
    rw [transfers_eq, List.append_assoc] at hnext
    rw [transfers_eq]
    simp only [Session.transfers, buffer, hsize hnext, DrainScript.transfers,
      DrainScript.buffer] at hnext ⊢
    exact hnext

theorem Sound.perform (hsteady : origin.Steady) (hs : h.Sound origin size) (call : FileCall) :
    (h.perform call).Sound origin size := by
  cases call with
  | step => exact hs.act (hs.engine_at.advance hsteady)
  | stop => exact hs.act (hs.engine_at.stop hsteady)
  | start script =>
      simp only [FileHistory.perform]
      rcases hs.engine_at.start with ⟨problem, he⟩ | ⟨engine, he, hnext⟩
      · rw [he]
        exact hs
      · rw [he]
        have hsize := hnext.transferSize_eq
        rw [transfers, hs.engine_at.transferSize_eq] at hnext
        constructor
        rw [transfers_eq]
        simp only [Session.transfers, buffer, DrainScript.transfers, DrainScript.buffer,
          List.append_nil, hsize]
        exact hnext

theorem Sound.run (hsteady : origin.Steady) (hs : h.Sound origin size) (calls : List FileCall) :
    (h.run calls).Sound origin size := by
  induction calls generalizing h with
  | nil => exact hs
  | cons call rest ih => exact ih (hs.perform hsteady call)

theorem Sound.transfers_length (hs : h.Sound origin size) :
    ∀ transfer ∈ h.transfers, transfer.length = size := by
  intro transfer hmem
  obtain ⟨session, _, hsession⟩ := List.mem_flatMap.mp hmem
  rw [hs.engine_at.transferSize_eq] at hsession
  exact session.script.transfers_length size session.calls transfer hsession

/-- A new file engine over a device. -/
def opened (device : Device) (size : Nat) : FileHistory :=
  { engine := { output := { device }, transferSize := size } }

theorem sound_opened (device : Device) (size : Nat) : (opened device size).Sound device size := by
  refine ⟨rfl, .idle ?_⟩
  exact ⟨rfl, .refl device, device.fitting_nil⟩

/-- However a file engine is started, stepped and stopped over a new device that takes some bytes at
each write until it is full, the device records the transfers of all sessions in order, cut where it
is full. Where no write failed these are all but the one in hand, each of the transfer size. -/
theorem sessions_record_transfers (device : Device) (hbytes : device.bytes = [])
    (hrecorded : device.recorded = 0) (hsteady : ∀ writes, device.portion writes ≠ some 0)
    (size : Nat) (calls : List FileCall)
    (hrun : (opened device size).run calls = h) :
    ∃ written, h.transfers = written ++ h.engine.inHand ∧
      (device.room = none → h.engine.output.bytes = written.flatten) ∧
      (∀ room, device.room = some room → h.engine.output.bytes = written.flatten.take room) ∧
      (∀ transfer ∈ h.transfers, transfer.length = size) ∧
      ((∀ problem, .writeFailed problem ∉ h.engine.log) →
        h.engine.output.bytes.length = written.length * size) := by
  have hs : h.Sound device size := hrun ▸ (sound_opened device size).run hsteady calls
  obtain ⟨written, hsplit, hlimited⟩ := hs.engine_at.limited
  have hall := hs.transfers_length
  have hheld : h.engine.output.bytes = device.fitting written.flatten := by
    have hlast := hlimited.recorded.bytes_eq
    rwa [hbytes, List.nil_append] at hlast
  refine ⟨written, hsplit, ?_, ?_, hall, ?_⟩
  · intro hroom
    simpa only [Device.fitting, hroom] using hheld
  · intro room hroom
    simpa only [Device.fitting, hroom, hrecorded, Nat.sub_zero] using hheld
  · intro hnone
    have hlengths : ∀ transfer ∈ written, transfer.length = size := by
      intro transfer hmem
      apply hall
      rw [hsplit]
      exact List.mem_append_left _ hmem
    have hmap := List.map_eq_replicate_iff.mpr hlengths
    rw [hheld, hlimited.fitting_eq hnone, List.length_flatten, hmap, List.sum_replicate_nat]

/-- Two transfers, each with one byte more set, and then the end of the stream. -/
def fillingScript : DrainScript where
  answer calls buffer :=
    .delivered ⟨if calls < 2 then .proceed else .terminate, buffer.set calls 5⟩
  length_eq := by
    rintro calls buffer _ ⟨⟩
    exact List.length_set

/-- One byte at a time, every other one after an interruption, and no more than seven. -/
def narrowDevice : Device where
  portion _ := some 1
  interruptions writes := writes % 2
  room := some 7

/-- A session to its end, and one that is stopped in its first transfer. -/
def fillingSessions : List FileCall :=
  .start fillingScript :: List.replicate 8 .step ++
    [.stop, .start fillingScript, .step, .step, .stop]

theorem sessions_record_to_room :
    ((opened narrowDevice 3).run fillingSessions).transfers = [[5, 0, 0], [5, 5, 0], [5, 0, 0]] ∧
      ((opened narrowDevice 3).run fillingSessions).engine.output.bytes =
        [5, 0, 0, 5, 5, 0, 5] := by
  have htransfers : ((opened narrowDevice 3).run fillingSessions).transfers =
      [[5, 0, 0], [5, 5, 0], [5, 0, 0]] := by cbv
  have hsteady : ∀ writes, narrowDevice.portion writes ≠ some 0 := by simp [narrowDevice]
  have hinHand : ((opened narrowDevice 3).run fillingSessions).engine.inHand = [] := by cbv
  obtain ⟨written, hsplit, _, hroom, _⟩ :=
    sessions_record_transfers narrowDevice rfl rfl hsteady 3 fillingSessions rfl
  rw [htransfers, hinHand, List.append_nil] at hsplit
  rw [hroom 7 rfl, ← hsplit]
  exact ⟨htransfers, rfl⟩

end FileHistory

end IqTransmit
