import IqTransmit.Proofs.Engine.Duty

/-!
Who has the writer of a file engine. A start hands it to a worker. A stop takes it back, if all that
the worker was given was written and flushed; after any other end it is lost for good. The writer
may fail or crash at any of its calls, and behave otherwise in each session.
-/

namespace IqTransmit

/-- Who has the writer: the engine, a worker, or nobody. -/
inductive Custody where
  | idle
  | busy
  | lost
  deriving DecidableEq

/-- The engine and its worker are as the custody says. -/
def Custody.Holds (e : FileEngine) : Custody → Prop
  | .idle => e.hasWriter = true ∧ e.worker = none
  | .busy => e.hasWriter = false ∧ e.worker.isSome = true
  | .lost => e.hasWriter = false ∧ e.worker = none

theorem Custody.Holds.unique {e : FileEngine} {custody other : Custody} (h : custody.Holds e)
    (h' : other.Holds e) : custody = other := by
  cases custody <;> cases other <;> simp_all [Custody.Holds]

theorem Action.run_andThen {E α β σ : Type} {pull : List Int8 → EStateM Fault σ Pulled}
    {after : α → E → β × E} {a : α} {engine : E} {action : Action E α} {s t : σ}
    (h : action.run pull s = .ok (a, engine) t) :
    (action.andThen after).run pull s = .ok (after a engine) t := by
  induction action generalizing s with
  | finish result e =>
      cases h
      rfl
  | pull dest resume ih =>
      simp only [Action.andThen, Action.run] at h ⊢
      cases hpull : pull dest s with
      | error fault u =>
          rw [hpull] at h
          cases h
      | ok pulled u =>
          rw [hpull] at h
          exact ih pulled h

namespace FileEngine

variable {handed output : Output} {sent : List (List Int8)} {buffer : List Int8}
variable {e : FileEngine} {size : Nat}

theorem Keeps.exists_unique (h : Keeps handed size sent buffer e) :
    ∃! custody : Custody, custody.Holds e := by
  obtain ⟨custody, hholds⟩ : ∃ custody : Custody, custody.Holds e := by
    cases hworker : e.worker with
    | some worker => exact ⟨.busy, (h.duty hworker).1, by rw [hworker]; rfl⟩
    | none =>
        cases hwriter : e.hasWriter with
        | true => exact ⟨.idle, hwriter, hworker⟩
        | false => exact ⟨.lost, hwriter, hworker⟩
  exact ⟨custody, hholds, fun other hother => hother.unique hholds⟩

/-- An engine that has its writer hands it to a worker with silence in its buffer. -/
theorem started_of_idle (h : Custody.idle.Holds e) :
    ∃ next, e.start = (.ok (), next) ∧
      Keeps e.output e.transferSize [] (List.replicate e.transferSize 0) next ∧
      Custody.busy.Holds next := by
  obtain ⟨hwriter, hworker⟩ := h
  simp only [start, hworker, hwriter, if_true]
  split
  · exact ⟨_, rfl, ⟨rfl, .working (.look rfl)⟩, rfl, rfl⟩
  · exact ⟨_, rfl, ⟨rfl, .working (.ended fun hnot => absurd rfl hnot)⟩, rfl, rfl⟩

/-- Any other is left as it is by a start that is refused. -/
theorem refused_of_not_idle (h : ¬ Custody.idle.Holds e) :
    ∃ problem, e.start = (.error problem, e) := by
  simp only [start]
  cases hworker : e.worker with
  | some worker => exact ⟨_, rfl⟩
  | none =>
      cases hwriter : e.hasWriter with
      | true => exact absurd ⟨hwriter, hworker⟩ h
      | false => exact ⟨_, rfl⟩

/-! ## Events -/

/-- An engine that is told to stop, if it has a worker. -/
def request (e : FileEngine) : FileEngine :=
  match e.worker with
  | none => e
  | some _ => e.told

/-- The writer crashes the worker that calls it. -/
def crash (e : FileEngine) (left : Output) : FileEngine :=
  match e.worker with
  | some (.busy (.write _)) | some (.busy .close) =>
      { e with output := left, worker := some (.ended .crashed) }
  | none | some (.busy (.look _)) | some (.pulling _) | some (.ended _) => e

/-- Where no worker has it, the device behaves like another from now on. -/
def behave (e : FileEngine) (like : Device) : FileEngine :=
  match e.worker with
  | some _ => e
  | none =>
      let device := { like with
        portions := e.output.device.portions
        recorded := e.output.device.recorded
        writes := e.output.device.writes }
      { e with output := { e.output with device } }

theorem Keeps.request (h : Keeps handed size sent buffer e) :
    Keeps handed size sent buffer e.request := by
  simp only [FileEngine.request]
  cases hworker : e.worker with
  | none => exact h
  | some worker => exact ⟨h.transferSize_eq, h.keeping⟩

theorem Keeps.crash (h : Keeps handed size sent buffer e) (left : Output) :
    Keeps handed size sent buffer (e.crash left) := by
  simp only [FileEngine.crash]
  split
  · next hworker =>
      exact .of_duty h.transferSize_eq (h.duty hworker).1 rfl (.ended fun hnot => absurd rfl hnot)
  · next hworker =>
      exact .of_duty h.transferSize_eq (h.duty hworker).1 rfl (.ended fun hnot => absurd rfl hnot)
  all_goals exact h

theorem behave_worker (e : FileEngine) (like : Device) : (e.behave like).worker = e.worker := by
  simp only [behave]
  split <;> simp_all

theorem behave_transferSize (e : FileEngine) (like : Device) :
    (e.behave like).transferSize = e.transferSize := by
  simp only [behave]
  split <;> rfl

theorem behave_hasWriter (e : FileEngine) (like : Device) :
    (e.behave like).hasWriter = e.hasWriter := by
  simp only [behave]
  split <;> rfl

/-- The device forgets nothing of what it has recorded. -/
theorem behave_bytes (e : FileEngine) (like : Device) :
    (e.behave like).output.bytes = e.output.bytes := by
  simp only [behave]
  split <;> rfl

end FileEngine

/-- What happens to a file engine: a call or a step of its worker; the first part of a stop, before
it waits; a crash of the writer in a call of the worker, which leaves some output; a change of how
the device behaves; and the end of the engine, for its writer. -/
inductive FileEvent where
  | call (call : FileCall)
  | request
  | crash (left : Output)
  | behave (like : Device)
  | takeWriter

namespace FileHistory

variable {h : FileHistory}

def undergo (h : FileHistory) : FileEvent → FileHistory
  | .call call => h.perform call
  | .request => { h with engine := h.engine.request }
  | .crash left => { h with engine := h.engine.crash left }
  | .behave like => { h with engine := h.engine.behave like }
  | .takeWriter => h.act FileEngine.takeWriter

/-- Who takes the writer has it if the stop before that gives it back. -/
theorem Comes.takeWriter {result : Except String Unit} {next : FileEngine} {calls : Nat}
    (hc : h.Comes FileEngine.stop result next calls) :
    h.Comes FileEngine.takeWriter next.hasWriter { next with hasWriter := false } calls :=
  Action.run_andThen hc

end FileHistory

/-- A file engine with all its sessions, and the output as it was when no worker had it last. -/
structure FileLife where
  history : FileHistory
  handed : Output

namespace FileLife

open FileEngine (Keeps Released)
open FileHistory (fillingScript)

variable {l : FileLife} {size : Nat}

def fresh (output : Output) (size : Nat) : FileLife := ⟨.fresh output size, output⟩

abbrev engine (l : FileLife) : FileEngine := l.history.engine

def undergo (l : FileLife) (event : FileEvent) : FileLife :=
  let history := l.history.undergo event
  { history, handed := if history.engine.worker.isNone then history.engine.output else l.handed }

def run (l : FileLife) (events : List FileEvent) : FileLife := events.foldl undergo l

/-- A stop meets no crash of the worker, and what the session has sent by then is written and
flushed without an error. -/
def Orderly (l : FileLife) : Prop :=
  ¬ l.engine.Crashes l.history.closure ∧
    (l.handed.sendEach ((l.history.perform .stop).session.transfers l.engine.transferSize)).1 =
      .ok ()

/-- The parts of the engine are kept since the last time that no worker had its output. -/
abbrev Sound (size : Nat) (l : FileLife) : Prop := l.history.Kept l.handed size

theorem sound_fresh (output : Output) (size : Nat) : (fresh output size).Sound size :=
  ⟨rfl, .resting true rfl⟩

theorem Sound.of_kept {event : FileEvent}
    (h : (l.history.undergo event).Kept l.handed size) : (l.undergo event).Sound size := by
  simp only [Sound, undergo]
  cases hworker : (l.history.undergo event).engine.worker with
  | none => exact FileEngine.keeps_of_no_worker h.transferSize_eq hworker
  | some worker => exact h

theorem Sound.of_joined {event : FileEvent}
    (hworker : (l.history.undergo event).engine.worker = none)
    (hsize : (l.history.undergo event).engine.transferSize = size) :
    (l.undergo event).Sound size := by
  simp only [Sound, undergo, hworker]
  exact FileEngine.keeps_of_no_worker hsize hworker

theorem Sound.start (hs : l.Sound size) (script : DrainScript) :
    (l.undergo (.call (.start script))).Sound size := by
  refine .of_kept ?_
  simp only [FileHistory.undergo, FileHistory.perform]
  by_cases hidle : Custody.idle.Holds l.engine
  · obtain ⟨next, he, hnext, _⟩ := FileEngine.started_of_idle hidle
    rw [hs.output_eq hidle.2, hs.transferSize_eq] at hnext
    rw [he]
    exact hnext
  · obtain ⟨problem, he⟩ := FileEngine.refused_of_not_idle hidle
    rw [he]
    exact hs

theorem Sound.undergo (hs : l.Sound size) (event : FileEvent) : (l.undergo event).Sound size := by
  cases event with
  | call call =>
      cases call with
      | start script => exact hs.start script
      | step => exact .of_kept hs.step
      | stop =>
          obtain ⟨result, next, calls, hcomes, hnone, hsize⟩ := hs.stop_joins
          obtain rfl := congrArg FileHistory.engine hcomes.act_eq
          exact .of_joined hnone hsize
  | request => exact .of_kept (Keeps.request hs)
  | crash left => exact .of_kept (Keeps.crash hs left)
  | behave like =>
      cases hworker : l.engine.worker with
      | none =>
          exact .of_joined ((FileEngine.behave_worker _ like).trans hworker)
            ((FileEngine.behave_transferSize _ like).trans hs.transferSize_eq)
      | some worker =>
          refine .of_kept ?_
          simp only [FileHistory.undergo, FileEngine.behave, hworker]
          exact hs
  | takeWriter =>
      obtain ⟨result, next, calls, hcomes, hnone, hsize⟩ := hs.stop_joins
      have hundergo := congrArg FileHistory.engine hcomes.takeWriter.act_eq
      exact .of_joined (by rw [FileHistory.undergo, hundergo]; exact hnone)
        (by rw [FileHistory.undergo, hundergo]; exact hsize)

theorem Sound.run (hs : l.Sound size) (events : List FileEvent) : (l.run events).Sound size := by
  induction events generalizing l with
  | nil => exact hs
  | cons event rest ih => exact ih (hs.undergo event)

/-! ## What the custody decides -/

theorem Sound.worker_eq_none (hs : l.Sound size) (h : ¬ Custody.busy.Holds l.engine) :
    l.engine.worker = none := by
  cases hworker : l.engine.worker with
  | none => rfl
  | some worker => exact absurd ⟨(hs.duty hworker).1, by rw [hworker]; rfl⟩ h

/-- Where the history is left and no worker had the output, all is left. -/
theorem Sound.undergo_eq (hs : l.Sound size) {event : FileEvent}
    (hsame : l.history.undergo event = l.history) : l.undergo event = l := by
  simp only [FileLife.undergo, hsame]
  cases hworker : l.engine.worker with
  | none =>
      rw [hs.output_eq hworker]
      rfl
  | some worker => rfl

theorem start_iff (script : DrainScript) : l.history.answer (.start script) = some (.ok ()) ↔
    Custody.idle.Holds l.engine := by
  simp only [FileHistory.answer, Option.some.injEq]
  constructor
  · intro hok
    by_contra hidle
    obtain ⟨problem, he⟩ := FileEngine.refused_of_not_idle hidle
    rw [he] at hok
    cases hok
  · intro hidle
    obtain ⟨next, he, _⟩ := FileEngine.started_of_idle hidle
    rw [he]

theorem start_busy (hidle : Custody.idle.Holds l.engine) (script : DrainScript) :
    Custody.busy.Holds (l.undergo (.call (.start script))).engine := by
  obtain ⟨next, he, _, hbusy⟩ := FileEngine.started_of_idle hidle
  simp only [undergo, FileHistory.undergo, FileHistory.perform, he]
  exact hbusy

theorem Sound.start_refused (hs : l.Sound size) (hidle : ¬ Custody.idle.Holds l.engine)
    (script : DrainScript) : l.undergo (.call (.start script)) = l := by
  obtain ⟨problem, he⟩ := FileEngine.refused_of_not_idle hidle
  refine hs.undergo_eq ?_
  simp only [FileHistory.undergo, FileHistory.perform, he]

/-- An event that meets no worker starts one with the writer of the engine, or records nothing and
gives no writer to the engine. -/
theorem undergo_of_no_worker (hworker : l.engine.worker = none) (event : FileEvent) :
    (Custody.idle.Holds l.engine ∧ Custody.busy.Holds (l.undergo event).engine) ∨
      ((l.undergo event).engine.worker = none ∧
        ((l.undergo event).engine.hasWriter = true → l.engine.hasWriter = true) ∧
        (l.undergo event).engine.output.bytes = l.engine.output.bytes) := by
  have hstop := FileHistory.comes_of_no_worker hworker
  have hsame (he : (l.history.undergo event).engine = l.engine) :
      (l.undergo event).engine.worker = none ∧
        ((l.undergo event).engine.hasWriter = true → l.engine.hasWriter = true) ∧
        (l.undergo event).engine.output.bytes = l.engine.output.bytes := by
    simp only [engine, undergo] at he ⊢
    rw [he]
    exact ⟨hworker, id, rfl⟩
  cases event with
  | call call =>
      cases call with
      | start script =>
          by_cases hidle : Custody.idle.Holds l.engine
          · exact .inl ⟨hidle, start_busy hidle script⟩
          · obtain ⟨problem, he⟩ := FileEngine.refused_of_not_idle hidle
            exact .inr (hsame (by simp only [FileHistory.undergo, FileHistory.perform, he]))
      | step =>
          have he : l.engine.advance = .finish () l.engine := by rw [FileEngine.advance, hworker]
          exact .inr (hsame (congrArg _ (FileHistory.act_of_finish_same he)))
      | stop => exact .inr (hsame (congrArg FileHistory.engine hstop.act_eq))
  | request => exact .inr (hsame (by simp only [FileHistory.undergo, FileEngine.request, hworker]))
  | crash left =>
      exact .inr (hsame (by simp only [FileHistory.undergo, FileEngine.crash, hworker]))
  | behave like =>
      exact .inr ⟨(FileEngine.behave_worker _ like).trans hworker,
        (FileEngine.behave_hasWriter _ like).symm.trans, FileEngine.behave_bytes _ like⟩
  | takeWriter =>
      have he := congrArg FileHistory.engine hstop.takeWriter.act_eq
      refine .inr ?_
      simp only [engine, undergo, FileHistory.undergo, he]
      simp [hworker]

/-- Where the writer is lost it stays lost. -/
theorem lost_run (hlost : Custody.lost.Holds l.engine) (events : List FileEvent) :
    Custody.lost.Holds (l.run events).engine := by
  induction events generalizing l with
  | nil => exact hlost
  | cons event rest ih =>
      refine ih ?_
      rcases undergo_of_no_worker hlost.2 event with ⟨hidle, _⟩ | ⟨hworker, hwriter, _⟩
      · cases hidle.unique hlost
      · refine ⟨?_, hworker⟩
        rw [← Bool.not_eq_true]
        exact mt hwriter (by rw [hlost.1]; nofun)

/-- A stop of a busy engine joins its worker. It is orderly or not, and who takes the writer gets
what it gives back. -/
theorem Sound.stop_released (hs : l.Sound size) (hbusy : Custody.busy.Holds l.engine) :
    ∃ result, l.history.answer .stop = some result ∧
      l.history.result FileEngine.takeWriter = some (l.undergo (.call .stop)).engine.hasWriter ∧
      Released l.Orderly size result (l.undergo (.call .stop)).engine := by
  obtain ⟨worker, hworker⟩ := Option.isSome_iff_exists.mp hbusy.2
  obtain ⟨result, next, calls, hcomes, hreleased⟩ := hs.stop_comes hworker
  obtain rfl : (l.undergo (.call .stop)).engine = next :=
    congrArg FileHistory.engine hcomes.act_eq
  refine ⟨result, hcomes.answer_eq, hcomes.takeWriter.result_eq, hreleased.congr ?_⟩
  simp only [Orderly, FileHistory.perform, hcomes.act_eq, Session.transfers, hs.transferSize_eq]

/-- Who has the writer decides what each call does, and who has it then. -/
structure Custodial (l : FileLife) : Prop where
  unique : ∃! custody : Custody, custody.Holds l.engine
  start_iff : ∀ script, l.history.answer (.start script) = some (.ok ()) ↔
    Custody.idle.Holds l.engine
  start_busy : Custody.idle.Holds l.engine → ∀ script,
    Custody.busy.Holds (l.undergo (.call (.start script))).engine
  start_refused : ¬ Custody.idle.Holds l.engine → ∀ script,
    l.undergo (.call (.start script)) = l
  stop_of_not_busy : ¬ Custody.busy.Holds l.engine →
    l.history.answer .stop = some (.ok ()) ∧ l.undergo (.call .stop) = l
  stop_orderly : Custody.busy.Holds l.engine → l.Orderly →
    l.history.answer .stop = some (.ok ()) ∧
      Custody.idle.Holds (l.undergo (.call .stop)).engine
  stop_loses : Custody.busy.Holds l.engine → ¬ l.Orderly →
    (∃ problem, l.history.answer .stop = some (.error problem)) ∧
      Custody.lost.Holds (l.undergo (.call .stop)).engine
  lost_for_good : Custody.lost.Holds l.engine → ∀ later,
    Custody.lost.Holds (l.run later).engine ∧ ∀ script, ∃ problem,
      (l.run later).history.answer (.start script) = some (.error problem)
  takeWriter_iff : ∃ taken, l.history.result FileEngine.takeWriter = some taken ∧
    (taken = true ↔ Custody.idle.Holds l.engine ∨ Custody.busy.Holds l.engine ∧ l.Orderly)
  records_busy : ¬ Custody.busy.Holds l.engine → ∀ event,
    ¬ Custody.busy.Holds (l.undergo event).engine →
      (l.undergo event).engine.output.bytes = l.engine.output.bytes

theorem Sound.takeWriter_iff (hs : l.Sound size) :
    ∃ taken, l.history.result FileEngine.takeWriter = some taken ∧
      (taken = true ↔ Custody.idle.Holds l.engine ∨
        Custody.busy.Holds l.engine ∧ l.Orderly) := by
  by_cases hbusy : Custody.busy.Holds l.engine
  · obtain ⟨result, _, htaken, hreleased⟩ := hs.stop_released hbusy
    have hidle : ¬ Custody.idle.Holds l.engine := fun h => nomatch h.unique hbusy
    exact ⟨_, htaken, by simp [hreleased.hasWriter_iff, hidle, hbusy]⟩
  · have hworker := hs.worker_eq_none hbusy
    have hcomes := FileHistory.comes_of_no_worker hworker
    exact ⟨_, hcomes.takeWriter.result_eq, by simp [Custody.Holds, hworker]⟩

theorem Sound.custodial (hs : l.Sound size) : l.Custodial := by
  refine ⟨Keeps.exists_unique hs, start_iff, start_busy, hs.start_refused, ?_, ?_, ?_, ?_,
    hs.takeWriter_iff, ?_⟩
  · intro hbusy
    have hcomes := FileHistory.comes_of_no_worker (hs.worker_eq_none hbusy)
    exact ⟨hcomes.answer_eq, hs.undergo_eq hcomes.act_eq⟩
  · intro hbusy horderly
    obtain ⟨result, hanswer, _, hreleased⟩ := hs.stop_released hbusy
    rw [hreleased.result_iff.mpr horderly] at hanswer
    exact ⟨hanswer, hreleased.hasWriter_iff.mpr horderly, hreleased.worker_eq⟩
  · intro hbusy horderly
    obtain ⟨result, hanswer, _, hreleased⟩ := hs.stop_released hbusy
    have hwriter := mt hreleased.hasWriter_iff.mp horderly
    refine ⟨?_, Bool.not_eq_true _ ▸ hwriter, hreleased.worker_eq⟩
    cases result with
    | ok _ => exact absurd (hreleased.result_iff.mp rfl) horderly
    | error problem => exact ⟨problem, hanswer⟩
  · intro hlost later
    have hlater := lost_run hlost later
    have hidle : ¬ Custody.idle.Holds (l.run later).engine :=
      fun h => nomatch h.unique hlater
    obtain ⟨problem, he⟩ := FileEngine.refused_of_not_idle hidle
    exact ⟨hlater, fun script => ⟨problem, by rw [FileHistory.answer, he]⟩⟩
  · intro hbusy event hafter
    rcases undergo_of_no_worker (hs.worker_eq_none hbusy) event with ⟨_, hstarted⟩ | ⟨_, _, hbytes⟩
    · exact absurd hstarted hafter
    · exact hbytes

/-- Whatever happens to a file engine over any output, just one of the engine, a worker and nobody
has its writer, and that decides what the calls do. -/
theorem custody_of_run (output : Output) (size : Nat) (events : List FileEvent) :
    ((fresh output size).run events).Custodial :=
  ((sound_fresh output size).run events).custodial

/-- A writer that crashes in its first write. -/
example : Custody.lost.Holds ((fresh { device := {} } 3).run
    [.call (.start fillingScript), .call .step, .call .step, .crash { device := {} },
      .call .stop]).engine :=
  ⟨rfl, rfl⟩

end FileLife

end IqTransmit
