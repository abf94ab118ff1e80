import IqTransmit.Proofs.Engine.Sessions

/-!
When a file engine says that it streams. It does from a start that succeeds until its worker ends;
but a worker that crashes does not take that back, and neither does the stop that meets it. So an
engine that was stopped says that it streams just if one of its stops has met a crashed worker.
-/

namespace IqTransmit

/-- A closure that never crashes. -/
def DrainScript.Calm (script : DrainScript) : Prop :=
  ∀ calls buffer, script.answer calls buffer ≠ .crashed

/-- Whether an engine with this worker says that it streams. -/
def Worker.streams : Worker → Bool
  | busy _ | pulling _ | ended .crashed => true
  | ended .done | ended (.failed _) => false

namespace FileEngine

variable {e : FileEngine} {met met' : Prop} {hasWriter streaming : Bool} {worker : Option Worker}

/-! ### The end of a run -/

/-- A run of `e` that has ended as `after` without a crash: the engine streams no more. -/
structure RunOver (e after : FileEngine) (outcome : Outcome) : Prop where
  hasWriter_eq : after.hasWriter = e.hasWriter
  transferSize_eq : after.transferSize = e.transferSize
  streaming_eq : after.streaming = false
  not_crashed : outcome ≠ .crashed

theorem RunOver.of_output {output : Output} {after : FileEngine} {outcome : Outcome}
    (h : RunOver { e with output } after outcome) : RunOver e after outcome :=
  ⟨h.hasWriter_eq, h.transferSize_eq, h.streaming_eq, h.not_crashed⟩

theorem failRun_over (e : FileEngine) (problem : String) :
    RunOver e (e.failRun problem).1 (e.failRun problem).2 :=
  ⟨rfl, rfl, rfl, by simp [failRun]⟩

theorem closeRun_over (e : FileEngine) : RunOver e e.closeRun.1 e.closeRun.2 := by
  simp only [closeRun]
  cases e.output.flush with
  | mk result output =>
      cases result with
      | ok _ => exact ⟨rfl, rfl, rfl, by simp⟩
      | error problem => exact (failRun_over { e with output } problem).of_output

theorem writeTransfer_over (e : FileEngine) (buffer : List Int8) :
    (∃ output, e.writeTransfer buffer = ({ e with output }, none)) ∨
      ∃ after outcome, e.writeTransfer buffer = (after, some outcome) ∧
        RunOver e after outcome := by
  simp only [writeTransfer]
  cases e.output.write buffer with
  | mk result output =>
      cases result with
      | ok _ => exact .inl ⟨output, rfl⟩
      | error problem =>
          exact .inr ⟨_, _, rfl, (failRun_over { e with output } problem).of_output⟩

theorem finishRun_over (e : FileEngine) (task : Task) :
    RunOver e (e.finishRun task).1 (e.finishRun task).2 := by
  cases task with
  | look buffer => exact e.closeRun_over
  | close => exact e.closeRun_over
  | write buffer =>
      simp only [finishRun]
      rcases e.writeTransfer_over buffer with ⟨output, he⟩ | ⟨after, outcome, he, hover⟩
      · rw [he]
        exact (closeRun_over { e with output }).of_output
      · rw [he]
        exact hover

/-! ### What the flags tell -/

/-- What the flags of an engine tell, by its worker. Whether a stop has `met` a crashed worker shows
once there is none. -/
inductive Marked (met : Prop) : (hasWriter streaming : Bool) → Option Worker → Prop where
  | idle : ¬ met → Marked met true false none
  | lost {streaming : Bool} : (streaming = true ↔ met) → Marked met false streaming none
  | working (worker : Worker) : ¬ met → Marked met false worker.streams (some worker)

/-- The flags of an engine are true of its worker. -/
abbrev Tells (met : Prop) (e : FileEngine) : Prop := Marked met e.hasWriter e.streaming e.worker

theorem Marked.congr (h : Marked met hasWriter streaming worker) (hmet : met ↔ met') :
    Marked met' hasWriter streaming worker := by
  rwa [← propext hmet]

theorem Marked.streaming_iff (h : Marked met hasWriter streaming none) :
    streaming = true ↔ met := by
  cases h with
  | idle hnot => simp [hnot]
  | lost hiff => exact hiff

theorem Marked.of_worker {w : Worker} (h : Marked met hasWriter streaming (some w)) :
    ¬ met ∧ hasWriter = false ∧ streaming = w.streams := by
  cases h with
  | working _ hnot => exact ⟨hnot, rfl, rfl⟩

/-- A worker goes on to what leaves the engine streaming as before. -/
theorem Marked.goes_on {w next : Worker} (h : Marked met hasWriter streaming (some w))
    (hstreams : next.streams = w.streams) : Marked met hasWriter streaming (some next) := by
  obtain ⟨hnot, rfl, rfl⟩ := h.of_worker
  rw [← hstreams]
  exact .working next hnot

theorem RunOver.tells {after : FileEngine} {outcome : Outcome} (h : RunOver e after outcome)
    (hnot : ¬ met) (hwriter : e.hasWriter = false) :
    Tells met { after with worker := some (.ended outcome) } := by
  have hstreams : after.streaming = Worker.streams (.ended outcome) := by
    rw [h.streaming_eq]
    cases outcome with
    | done => rfl
    | failed problem => rfl
    | crashed => exact absurd rfl h.not_crashed
  simp only [Tells, hstreams, h.hasWriter_eq.trans hwriter]
  exact .working _ hnot

theorem tells_perform (h : Tells met e) {task : Task} (hworker : e.worker = some (.busy task)) :
    Tells met (e.perform task) := by
  rw [Tells, hworker] at h
  obtain ⟨hnot, hwriter, _⟩ := h.of_worker
  cases task with
  | look buffer =>
      simp only [perform]
      split
      · exact h.goes_on rfl
      · exact h.goes_on rfl
  | write buffer =>
      simp only [perform]
      rcases e.writeTransfer_over buffer with ⟨output, he⟩ | ⟨after, outcome, he, hover⟩
      · rw [he]
        exact h.goes_on rfl
      · rw [he]
        exact hover.tells hnot hwriter
  | close => exact e.closeRun_over.tells hnot hwriter

/-- A step of `e` to `after` has not crashed the worker. -/
structure Spared (e after : FileEngine) : Prop where
  not_crashed : after.worker ≠ some (.ended .crashed)
  transferSize_eq : after.transferSize = e.transferSize

theorem RunOver.spared {after : FileEngine} {outcome : Outcome} (h : RunOver e after outcome) :
    Spared e { after with worker := some (.ended outcome) } :=
  ⟨by simpa using h.not_crashed, h.transferSize_eq⟩

theorem perform_spared (e : FileEngine) (task : Task) : Spared e (e.perform task) := by
  cases task with
  | look buffer =>
      simp only [perform]
      split
      · exact ⟨by simp, rfl⟩
      · exact ⟨by simp, rfl⟩
  | write buffer =>
      simp only [perform]
      rcases e.writeTransfer_over buffer with ⟨output, he⟩ | ⟨after, outcome, he, hover⟩
      · rw [he]
        exact ⟨by simp, rfl⟩
      · rw [he]
        exact hover.spared
  | close => exact e.closeRun_over.spared

theorem receive_spared (e : FileEngine) {pulled : Pulled} (hpulled : pulled ≠ .crashed) :
    Spared e (e.receive pulled) := by
  cases pulled with
  | crashed => exact absurd rfl hpulled
  | delivered delivery =>
      obtain ⟨status, bytes⟩ := delivery
      cases status with
      | proceed => exact ⟨by simp [receive, afterPull], rfl⟩
      | terminate => exact ⟨by simp [receive, afterPull], rfl⟩

theorem tells_receive (h : Tells met e) {buffer : List Int8}
    (hworker : e.worker = some (.pulling buffer)) (pulled : Pulled) :
    Tells met (e.receive pulled) := by
  rw [Tells, hworker] at h
  simp only [receive]
  cases afterPull pulled with
  | some task => exact h.goes_on rfl
  | none => exact h.goes_on rfl

/-- A start is refused and changes nothing, or a new worker begins. -/
theorem tells_start (h : Tells met e) :
    (∃ problem, e.start = (.error problem, e)) ∨
      ∃ next, e.start = (.ok (), next) ∧ Tells met next ∧
        next.transferSize = e.transferSize ∧
        (e.transferSize ≤ maxStore → next.worker ≠ some (.ended .crashed)) := by
  simp only [start]
  cases hworker : e.worker with
  | some worker => exact .inl ⟨_, rfl⟩
  | none =>
      cases hwriter : e.hasWriter with
      | false => exact .inl ⟨_, rfl⟩
      | true =>
          right
          have hnot : ¬ met := by
            rw [Tells, hworker, hwriter] at h
            generalize e.streaming = streaming at h
            cases h with
            | idle hnot => exact hnot
          simp only [if_true]
          split
          · exact ⟨_, rfl, .working (.busy _) hnot, rfl, fun _ => by simp⟩
          · next hlarge =>
              exact ⟨_, rfl, .working (.ended .crashed) hnot, rfl,
                fun hsmall => absurd hsmall hlarge⟩

/-! ### Stops -/

/-- What a stop answers that meets a crashed worker. -/
def crashText : String := "file sink thread panicked"

theorem writeError_ne_crashText (problem : String) : s!"write error: {problem}" ≠ crashText := by
  intro heq
  have hhead := congrArg (fun text => text.toList.head?) heq
  simp [toString, crashText] at hhead

/-- What is left of an engine once its worker is joined, and whether that one has crashed: the flags
tell of it, and so does the answer. -/
structure Joined (met crashed : Prop) (size : Nat) (result : Except String Unit)
    (next : FileEngine) : Prop where
  worker_eq : next.worker = none
  transferSize_eq : next.transferSize = size
  result_iff : result = .error crashText ↔ crashed
  tells : Tells (met ∨ crashed) next

theorem Joined.congr {crashed crashed' : Prop} {size : Nat} {result : Except String Unit}
    {next : FileEngine} (h : Joined met crashed size result next) (hiff : crashed ↔ crashed') :
    Joined met crashed' size result next := by
  rwa [← propext hiff]

theorem joined_of_join (hnot : ¬ met) (outcome : Outcome) (hwriter : e.hasWriter = false)
    (hstreams : e.streaming = decide (outcome = .crashed)) :
    ∃ result next, e.join outcome = .finish result next ∧
      Joined met (outcome = .crashed) e.transferSize result next := by
  cases outcome with
  | done => exact ⟨_, _, rfl, rfl, rfl, by simp, .idle (by simp [hnot])⟩
  | failed problem =>
      refine ⟨_, _, rfl, rfl, rfl, ?_, ?_⟩
      · simpa using writeError_ne_crashText problem
      · simp only [Tells, hwriter]
        exact .lost (by simp [hnot])
  | crashed =>
      refine ⟨_, _, rfl, rfl, rfl, by simp [crashText], ?_⟩
      simp only [Tells, hwriter, hstreams]
      exact .lost (by simp)

theorem RunOver.joined {after : FileEngine} {outcome : Outcome} (h : RunOver e after outcome)
    (hnot : ¬ met) (hwriter : e.hasWriter = false) :
    ∃ result next, after.join outcome = .finish result next ∧
      Joined met False e.transferSize result next := by
  have hcalm : outcome = .crashed ↔ False := iff_false_intro h.not_crashed
  obtain ⟨result, next, he, hjoined⟩ := joined_of_join hnot outcome
    (h.hasWriter_eq.trans hwriter) (by simp [h.streaming_eq, hcalm])
  rw [h.transferSize_eq] at hjoined
  exact ⟨result, next, he, hjoined.congr hcalm⟩

/-- The worker of an engine has crashed, or does so in the call of its closure that it is at. -/
def Crashes (e : FileEngine) (c : Closure) : Prop :=
  e.worker = some (.ended .crashed) ∨
    ∃ buffer, e.worker = some (.pulling buffer) ∧ c.answer c.calls buffer = .crashed

theorem afterPull_delivered (delivery : Delivery) :
    ∃ task, afterPull (.delivered delivery) = some task := by
  obtain ⟨status, bytes⟩ := delivery
  cases status with
  | proceed => exact ⟨_, rfl⟩
  | terminate => exact ⟨_, rfl⟩

/-- A stop leaves no worker. Only one that has crashed leaves the engine streaming, and its stop says
so. -/
theorem tells_stop (h : Tells met e) (c : Closure) :
    ∃ result next c', e.stop.run Closure.pull c = .ok (result, next) c' ∧
      Joined met (e.Crashes c) e.transferSize result next := by
  cases hworker : e.worker with
  | none =>
      have hidle : e.stop = .finish (.ok ()) e := by simp only [stop, hworker]
      have hcalm : ¬ e.Crashes c := by simp [Crashes, hworker]
      rw [hidle]
      exact ⟨_, _, _, rfl, hworker, rfl, by simp [hcalm], h.congr (by simp [hcalm])⟩
  | some worker =>
      rw [Tells, hworker] at h
      obtain ⟨hnot, hwriter, hstreams⟩ := h.of_worker
      cases worker with
      | ended outcome =>
          have hcrashes : outcome = .crashed ↔ e.Crashes c := by simp [Crashes, hworker]
          have hdecide : e.told.streaming = decide (outcome = .crashed) := by
            refine Eq.trans hstreams ?_
            cases outcome <;> rfl
          obtain ⟨result, next, he, hjoined⟩ :=
            joined_of_join (e := e.told) hnot outcome hwriter hdecide
          rw [stop_of_ended hworker, he]
          exact ⟨_, _, _, rfl, hjoined.congr hcrashes⟩
      | busy task =>
          have hcalm : False ↔ e.Crashes c := by simp [Crashes, hworker]
          obtain ⟨result, next, he, hjoined⟩ := (finishRun_over e.told task).joined hnot hwriter
          rw [stop_of_busy hworker, he]
          exact ⟨_, _, _, rfl, hjoined.congr hcalm⟩
      | pulling buffer =>
          -- the call of the closure under way decides how the worker ends
          rw [stop_of_pulling hworker]
          simp only [Action.run, Closure.pull]
          cases hpulled : c.answer c.calls buffer with
          | crashed =>
              have hcrashes : Outcome.crashed = .crashed ↔ e.Crashes c :=
                iff_of_true rfl (.inr ⟨buffer, hworker, hpulled⟩)
              obtain ⟨result, next, he, hjoined⟩ :=
                joined_of_join (e := { e.told with output := e.told.output.abandon }) hnot
                  .crashed hwriter hstreams
              simp only [afterPull, he, Action.run]
              exact ⟨_, _, _, rfl, hjoined.congr hcrashes⟩
          | delivered delivery =>
              have hcalm : False ↔ e.Crashes c := by simp [Crashes, hworker, hpulled]
              obtain ⟨task, htask⟩ := afterPull_delivered delivery
              obtain ⟨result, next, he, hjoined⟩ :=
                (finishRun_over e.told task).joined hnot hwriter
              simp only [htask, he, Action.run]
              exact ⟨_, _, _, rfl, hjoined.congr hcalm⟩

end FileEngine

namespace FileHistory

open FileEngine (Tells Crashes Joined crashText)

variable {h : FileHistory} {met : Prop}

/-- A file engine over an output, before its first start. -/
def fresh (output : Output) (size : Nat) : FileHistory :=
  { engine := { output, transferSize := size } }

/-- The closure of the newest session, as its worker is about to call it. -/
def closure (h : FileHistory) : Closure := ⟨h.session.script.answer, h.session.calls⟩

/-- What a call answers. A step of the worker answers nothing. -/
def answer (h : FileHistory) : FileCall → Option (Except String Unit)
  | .start _ => some h.engine.start.1
  | .step => none
  | .stop =>
      match h.engine.stop.run Closure.pull h.closure with
      | .ok (result, _) _ => some result
      | .error _ _ => none

/-- The calls of a run, each with what it answers. -/
def transcript (h : FileHistory) : List FileCall → List (FileCall × Option (Except String Unit))
  | [] => []
  | call :: rest => (call, h.answer call) :: (h.perform call).transcript rest

theorem run_append (h : FileHistory) (before after : List FileCall) :
    h.run (before ++ after) = (h.run before).run after := List.foldl_append

theorem transcript_append (h : FileHistory) (before after : List FileCall) :
    h.transcript (before ++ after) = h.transcript before ++ (h.run before).transcript after := by
  induction before generalizing h with
  | nil => rfl
  | cons call rest ih => exact congrArg _ (ih (h.perform call))

/-- A stop that tells of a crashed worker. -/
def crashed : FileCall × Option (Except String Unit) := (.stop, some (.error crashText))

/-! ### Single calls -/

theorem tells_step (hm : Tells met h.engine) : Tells met (h.perform .step).engine := by
  simp only [perform, act, FileEngine.advance]
  cases hworker : h.engine.worker with
  | none => exact hm
  | some worker =>
      cases worker with
      | ended outcome => exact hm
      | busy task => exact FileEngine.tells_perform hm hworker
      | pulling buffer => exact FileEngine.tells_receive hm hworker _

theorem joined_of_stop (hm : Tells met h.engine) :
    ∃ result, h.answer .stop = some result ∧
      Joined met (h.engine.Crashes h.closure) h.engine.transferSize result
        (h.perform .stop).engine := by
  obtain ⟨result, next, left, he, hjoined⟩ := FileEngine.tells_stop hm h.closure
  have hafter : (h.perform .stop).engine = next := by
    simp only [closure] at he
    simp only [perform, act, he]
  refine ⟨result, by simp only [answer, he], ?_⟩
  rw [hafter]
  exact hjoined

theorem tells_started (hm : Tells met h.engine) (script : DrainScript) :
    Tells met (h.perform (.start script)).engine := by
  simp only [perform]
  rcases FileEngine.tells_start hm with ⟨problem, he⟩ | ⟨next, he, hnext, _⟩
  · rw [he]
    exact hm
  · rw [he]
    exact hnext

/-! ### Runs -/

/-- The flags stay true of the worker, and a stop that meets a crashed one is in the transcript. -/
theorem tells_run (hm : Tells met h.engine) (calls : List FileCall) :
    Tells (met ∨ crashed ∈ h.transcript calls) (h.run calls).engine := by
  induction calls generalizing h met with
  | nil => exact hm.congr (by simp [transcript])
  | cons call rest ih =>
      have hcall : Tells (met ∨ (call, h.answer call) = crashed) (h.perform call).engine := by
        cases call with
        | start script => exact (tells_started hm script).congr (by simp [crashed])
        | step => exact (tells_step hm).congr (by simp [crashed])
        | stop =>
            obtain ⟨result, hanswer, hjoined⟩ := joined_of_stop hm
            exact hjoined.tells.congr (by simp [crashed, hanswer, hjoined.result_iff])
      exact (ih hcall).congr (by simp [transcript, or_assoc, eq_comm])

/-- Without a worker an engine stays without one until a start succeeds. -/
theorem worker_eq_none {calls : List FileCall} (hm : Tells met h.engine)
    (hnone : h.engine.worker = none)
    (hrefused : ∀ script, (.start script, some (.ok ())) ∉ h.transcript calls) :
    (h.run calls).engine.worker = none := by
  induction calls generalizing h met with
  | nil => exact hnone
  | cons call rest ih =>
      have hrest : ∀ script, (.start script, some (.ok ())) ∉ (h.perform call).transcript rest :=
        fun script hmem => hrefused script (List.mem_cons_of_mem _ hmem)
      cases call with
      | start script =>
          refine ih (tells_started hm script) ?_ hrest
          simp only [perform]
          rcases FileEngine.tells_start hm with ⟨problem, he⟩ | ⟨next, he, _⟩
          · rw [he]
            exact hnone
          · refine absurd (List.mem_cons.mpr (.inl ?_)) (hrefused script)
            rw [answer, he]
      | step =>
          refine ih (tells_step hm) ?_ hrest
          simp only [perform, act, FileEngine.advance, hnone, Action.run]
      | stop =>
          obtain ⟨_, _, hjoined⟩ := joined_of_stop hm
          exact ih hjoined.tells hjoined.worker_eq hrest

/-- No worker of an engine has crashed, and the one that it has will not. -/
structure Unharmed (h : FileHistory) : Prop where
  transferSize_le : h.engine.transferSize ≤ maxStore
  not_crashed : h.engine.worker ≠ some (.ended .crashed)
  calm : h.engine.worker = none ∨ h.session.script.Calm

theorem Unharmed.not_crashes (hu : h.Unharmed) : ¬ h.engine.Crashes h.closure := by
  rintro (hended | ⟨buffer, hpulling, hcrash⟩)
  · exact hu.not_crashed hended
  · rcases hu.calm with hnone | hcalm
    · rw [hnone] at hpulling
      cases hpulling
    · exact hcalm _ _ hcrash

theorem Unharmed.step (hu : h.Unharmed) : (h.perform .step).Unharmed := by
  simp only [perform, act, FileEngine.advance]
  cases hworker : h.engine.worker with
  | none => exact hu
  | some worker =>
      have hcalm : h.session.script.Calm := hu.calm.resolve_left (by simp [hworker])
      cases worker with
      | ended outcome => exact hu
      | busy task =>
          have hspared := h.engine.perform_spared task
          exact ⟨hspared.transferSize_eq.trans_le hu.transferSize_le, hspared.not_crashed,
            .inr hcalm⟩
      | pulling buffer =>
          have hspared := h.engine.receive_spared (hcalm h.session.calls buffer)
          exact ⟨hspared.transferSize_eq.trans_le hu.transferSize_le, hspared.not_crashed,
            .inr hcalm⟩

/-- Of closures that never crash no stop tells that one has. -/
theorem Unharmed.run {calls : List FileCall} (hu : h.Unharmed) (hm : Tells met h.engine)
    (hcalm : ∀ script, (.start script, some (.ok ())) ∈ h.transcript calls → script.Calm) :
    crashed ∉ h.transcript calls := by
  induction calls generalizing h met with
  | nil => exact List.not_mem_nil
  | cons call rest ih =>
      have hrest : ∀ script, (.start script, some (.ok ())) ∈ (h.perform call).transcript rest →
          script.Calm := fun script hmem => hcalm script (List.mem_cons_of_mem _ hmem)
      simp only [transcript, List.mem_cons, not_or]
      cases call with
      | start script =>
          refine ⟨by simp [crashed], ih ?_ (tells_started hm script) hrest⟩
          rcases FileEngine.tells_start hm with ⟨problem, he⟩ | ⟨next, he, _, hsize, hnot⟩
          · simp only [perform, he]
            exact hu
          · simp only [perform, he]
            refine ⟨hsize.trans_le hu.transferSize_le, hnot hu.transferSize_le, .inr ?_⟩
            apply hcalm
            rw [transcript, answer, he]
            exact List.mem_cons_self
      | step => exact ⟨by simp [crashed], ih hu.step (tells_step hm) hrest⟩
      | stop =>
          obtain ⟨result, hanswer, hjoined⟩ := joined_of_stop hm
          have hnone := hjoined.worker_eq
          have hsize := hjoined.transferSize_eq.trans_le hu.transferSize_le
          refine ⟨?_, ih ⟨hsize, by simp [hnone], .inl hnone⟩ hjoined.tells hrest⟩
          simp only [crashed, hanswer, Prod.mk.injEq, true_and, Option.some.injEq]
          intro hcrashed
          exact hu.not_crashes (hjoined.result_iff.mp hcrashed.symm)

/-- From a stop of a file engine until a start succeeds it says that it streams just if that stop, or
one before it, has met a crashed worker. With closures that never crash, and transfers that fit into
a store, it says that it does not. -/
theorem streams_after_stop_iff (output : Output) (size : Nat) (before later : List FileCall)
    (hrefused : ∀ script, (.start script, some (.ok ())) ∉
      ((fresh output size).run (before ++ [.stop])).transcript later) :
    (((fresh output size).run (before ++ .stop :: later)).engine.streaming = true ↔
      (.stop, some (.error "file sink thread panicked")) ∈
        (fresh output size).transcript (before ++ .stop :: later)) ∧
    (size ≤ maxStore →
      (∀ script, (.start script, some (.ok ())) ∈ (fresh output size).transcript before →
        script.Calm) →
      ((fresh output size).run (before ++ .stop :: later)).engine.streaming = false) := by
  have hfresh : Tells False (fresh output size).engine := .idle id
  have hstopped := tells_run hfresh (before ++ [.stop])
  have hnone : ((fresh output size).run (before ++ [.stop])).engine.worker = none := by
    obtain ⟨_, _, hjoined⟩ := joined_of_stop (tells_run hfresh before)
    rw [run_append]
    exact hjoined.worker_eq
  have hsplit : before ++ .stop :: later = (before ++ [.stop]) ++ later := by simp
  have hlast := worker_eq_none hstopped hnone hrefused
  have hall := tells_run hfresh (before ++ .stop :: later)
  rw [← run_append, ← hsplit] at hlast
  rw [Tells, hlast, false_or] at hall
  refine ⟨hall.streaming_iff, fun hsize hcalm => ?_⟩
  have hunharmed : (fresh output size).Unharmed := ⟨hsize, nofun, .inl rfl⟩
  have hnever : crashed ∉ (fresh output size).transcript (before ++ .stop :: later) := by
    apply hunharmed.run hfresh
    intro script hmem
    rw [hsplit, transcript_append, transcript_append] at hmem
    rcases List.mem_append.mp hmem with hmem | hmem
    · rcases List.mem_append.mp hmem with hmem | hmem
      · exact hcalm script hmem
      · cases List.mem_singleton.mp hmem
    · exact absurd hmem (hrefused script)
  rw [← Bool.not_eq_true]
  exact mt hall.streaming_iff.mp hnever

/-- A session to its end, and a stop of it. -/
def filledSession : List FileCall := .start fillingScript :: List.replicate 8 .step

/-- A session whose closure crashes in its first call. -/
def crashedSession : List FileCall := [.start .crashing, .step, .step]

theorem fillingScript_calm : fillingScript.Calm := fun _ _ => nofun

theorem transcript_filledSession :
    (fresh { device := narrowDevice } 2).transcript filledSession =
      (.start fillingScript, some (.ok ())) :: List.replicate 8 (.step, none) := by cbv

theorem transcript_crashedSession :
    (fresh { device := {} } 4).transcript (crashedSession ++ [.stop, .start fillingScript, .stop]) =
      [(.start .crashing, some (.ok ())), (.step, none), (.step, none),
        (.stop, some (.error "file sink thread panicked")),
        (.start fillingScript, some (.error "file sink output lost after a write error")),
        (.stop, some (.ok ()))] := by cbv

theorem transcript_after_crash :
    ((fresh { device := {} } 4).run (crashedSession ++ [.stop])).transcript
        [.start fillingScript, .stop] =
      [(.start fillingScript, some (.error "file sink output lost after a write error")),
        (.stop, some (.ok ()))] := by cbv

/-- After an orderly session the engine does not stream. After a crash it does, also once the next
start was refused. -/
theorem streams_after_stop_of_sessions :
    ((fresh { device := narrowDevice } 2).run (filledSession ++ [.stop, .stop])).engine.streaming =
        false ∧
      ((fresh { device := {} } 4).run
        (crashedSession ++ [.stop, .start fillingScript, .stop])).engine.streaming = true := by
  constructor
  · refine (streams_after_stop_iff { device := narrowDevice } 2 filledSession [.stop] ?_).2
      (by decide) ?_
    · intro script hmem
      cases List.mem_singleton.mp hmem
    · intro script hmem
      rw [transcript_filledSession] at hmem
      simp only [List.mem_cons, Prod.mk.injEq, FileCall.start.injEq, List.mem_replicate,
        reduceCtorEq, and_false, or_false, and_true] at hmem
      exact hmem ▸ fillingScript_calm
  · refine (streams_after_stop_iff { device := {} } 4 crashedSession
      [.start fillingScript, .stop] ?_).1.mpr ?_
    · intro script hmem
      rw [transcript_after_crash] at hmem
      simp at hmem
    · rw [transcript_crashedSession]
      simp

/-- The closure of a session crashes, and the engine still says that it streams after its stop. -/
theorem streams_after_crash :
    ((fresh { device := {} } 4).run crashedSession).answer .stop =
        some (.error "file sink thread panicked") ∧
      ((fresh { device := {} } 4).run (crashedSession ++ [.stop])).engine.streaming = true :=
  ⟨by decide, by decide⟩

end FileHistory

end IqTransmit
