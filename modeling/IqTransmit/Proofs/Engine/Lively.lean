import IqTransmit.Engine.Steered
import IqTransmit.Proofs.Engine.File
import IqTransmit.Proofs.Sink.Lively

/-!
Two engines that live. The worker of a file engine makes a transfer in every third of its moves, as
long as its writes succeed, and it moves once more after the end to flush. An engine that is told
what to do makes the transfers of its batch one after another, and the end is its end.
-/

namespace IqTransmit

variable {size batch left n : Nat} {limit : Option Duration} {moves : List Move}
variable {pauses : List Pause}

/-! ## A file engine -/

/-- A worker amid a stream, with so many moves to come before its next transfer. -/
inductive Worker.Turns (size : Nat) : Nat → Worker → Prop where
  | pulling {buffer : List Int8} : buffer.length = size → Worker.Turns size 0 (.pulling buffer)
  | look {buffer : List Int8} : buffer.length = size → Worker.Turns size 1 (.busy (.look buffer))
  | write {buffer : List Int8} : buffer.length = size → Worker.Turns size 2 (.busy (.write buffer))

namespace FileEngine

variable {e last : FileEngine}

/-- An engine amid a stream that it writes to a device without failures. -/
structure Alive (size left : Nat) (e : FileEngine) : Prop where
  streaming : e.streaming = true
  stopRequested : e.stopRequested = false
  reliable : e.output.device.Reliable
  counted : e.output.Counted
  worker : ∃ worker, e.worker = some worker ∧ worker.Turns size left

/-- An engine that was told of the end, and has not been stopped: it is to flush its output, or it
has done so. -/
inductive Closing (e : FileEngine) : Nat → Prop where
  | close : e.streaming = true → e.output.device.Reliable → e.worker = some (.busy .close) →
      Closing e 1
  | done : e.streaming = false → e.worker = some (.ended .done) → Closing e 0

theorem Alive.left_le (h : Alive size left e) : left ≤ 2 := by
  obtain ⟨worker, _, hturns⟩ := h.worker
  cases hturns <;> decide

/-- Between transfers the worker comes nearer to the next. -/
theorem Alive.advance_succ (h : Alive size (left + 1) e) :
    ∃ next, TransferEngine.advance e = .finish () next ∧ Alive size left next := by
  obtain ⟨worker, hworker, hturns⟩ := h.worker
  cases hturns with
  | @look buffer hbuffer =>
      refine ⟨{ e with worker := some (.pulling buffer) }, ?_, h.streaming, h.stopRequested,
        h.reliable, h.counted, _, rfl, .pulling hbuffer⟩
      simp only [TransferEngine.advance, advance, hworker, perform, h.stopRequested]
      rfl
  | @write buffer hbuffer =>
      have hok := Output.reliable_write h.reliable buffer
      have haccepted := Output.write_accepted h.counted hok
      cases hwrite : e.output.write buffer with
      | mk result output =>
          rw [hwrite] at hok haccepted
          cases hok
          refine ⟨{ e with output, worker := some (.busy (.look buffer)) }, ?_, h.streaming,
            h.stopRequested, haccepted.reliable h.reliable, haccepted.counted, _, rfl,
            .look hbuffer⟩
          simp only [TransferEngine.advance, advance, hworker, perform, writeTransfer, hwrite]

/-- At a transfer it goes on or comes to the end, as it is told. -/
theorem Alive.advance_zero (h : Alive size 0 e) :
    ∃ dest resume, TransferEngine.advance e = .pull dest resume ∧ dest.length = size ∧
      (∀ bytes, bytes.length = size →
        ∃ next, resume (.delivered ⟨.proceed, bytes⟩) = .finish () next ∧ Alive size 2 next) ∧
      ∀ bytes, ∃ next, resume (.delivered ⟨.terminate, bytes⟩) = .finish () next ∧
        Closing next 1 := by
  obtain ⟨worker, hworker, hturns⟩ := h.worker
  cases hturns with
  | @pulling buffer hbuffer =>
      refine ⟨buffer, fun pulled => .finish () (e.receive pulled), ?_, hbuffer,
        fun bytes hbytes => ⟨_, rfl, h.streaming, h.stopRequested, h.reliable, h.counted, _, rfl,
          .write hbytes⟩,
        fun bytes => ⟨_, rfl, .close h.streaming h.reliable rfl⟩⟩
      simp only [TransferEngine.advance, advance, hworker]

theorem Closing.advance {k : Nat} (h : Closing e k) :
    ∃ next, TransferEngine.advance e = .finish () next ∧ Closing next (k - 1) := by
  cases h with
  | close hstreaming hreliable hworker =>
      have hok := Output.reliable_flush hreliable
      refine ⟨e.perform .close, ?_, ?_⟩
      · simp only [TransferEngine.advance, FileEngine.advance, hworker]
      · cases hflush : e.output.flush with
        | mk result output =>
            rw [hflush] at hok
            cases hok
            refine .done ?_ ?_
            · simp only [perform, closeRun, hflush]
            · simp only [perform, closeRun, hflush]
  | done hstreaming hworker =>
      exact ⟨e, by simp only [TransferEngine.advance, FileEngine.advance, hworker],
        .done hstreaming hworker⟩

/-- Of its moves every third is a transfer. -/
theorem Alive.pulls (h : Alive size left e) (hpulls : Pulls size moves e n last) :
    ∃ rest, Alive size rest last ∧ moves.length + rest = 3 * n + left := by
  induction hpulls generalizing left with
  | done => exact ⟨left, h, by simp⟩
  | idle hadvance _ ih =>
      cases left with
      | zero =>
          obtain ⟨_, _, hpull, _⟩ := h.advance_zero
          cases hadvance.symm.trans hpull
      | succ left =>
          obtain ⟨next, hnext, halive⟩ := h.advance_succ
          cases hadvance.symm.trans hnext
          obtain ⟨rest, hrest, hlen⟩ := ih halive
          refine ⟨rest, hrest, ?_⟩
          rw [List.length_cons]
          omega
  | pull hadvance hbytes hresume _ ih =>
      cases left with
      | zero =>
          obtain ⟨_, _, hpull, _, hproceed, _⟩ := h.advance_zero
          cases hadvance.symm.trans hpull
          obtain ⟨next, hnext, halive⟩ := hproceed _ hbytes
          cases hresume.symm.trans hnext
          obtain ⟨rest, hrest, hlen⟩ := ih halive
          refine ⟨rest, hrest, ?_⟩
          rw [List.length_cons]
          omega
      | succ left =>
          obtain ⟨next, hnext, _⟩ := h.advance_succ
          cases hadvance.symm.trans hnext

/-- So it drains in pauses of three moves or more, a third of them at most. -/
theorem Alive.drains (h : Alive size left e)
    (hpauses : ∀ pause ∈ pauses, pause.InTime limit ∧ OnlyEngine pause.moves ∧
      3 ≤ pause.moves.length ∧ pause.moves.length ≤ 3 * batch) :
    Drains size batch limit pauses e := by
  refine drains_of_kept (fun e => ∃ left, Alive size left e) (fun pause hmem => ?_) ?_ ⟨left, h⟩
  · obtain ⟨htime, honly, _⟩ := hpauses pause hmem
    exact ⟨htime, honly⟩
  · rintro pause hmem e n last ⟨left, h⟩ hpulls
    obtain ⟨_, _, hmany, hfew⟩ := hpauses pause hmem
    obtain ⟨after, hlast, hlen⟩ := h.pulls hpulls
    have hleft := h.left_le
    have hafter := hlast.left_le
    exact ⟨by omega, by omega, after, hlast⟩

end FileEngine

/-! ## An engine that is told what to do -/

namespace Steered

variable {e last : Steered} {stopError : Option String} {owed : Nat}

/-- An engine that streams and is not to end by itself, with `owed` transfers of its batch to
come. -/
structure Alive (size batch : Nat) (stopError : Option String) (owed : Nat) (e : Steered) :
    Prop where
  streaming : e.streaming = true
  attached : e.attached = true
  transferSize_eq : e.transferSize = size
  batch_eq : e.batch = batch
  owed_eq : e.owed = owed
  endsAt_le : e.endsAt ≤ e.looks
  stopError_eq : e.stopError = stopError

/-- An engine that streams no more. -/
structure Spent (stopError : Option String) (e : Steered) : Prop where
  streaming : e.streaming = false
  stopError_eq : e.stopError = stopError

/-- The result of a stop. -/
def ending : Option String → Except String Unit
  | some problem => .error problem
  | none => .ok ()

theorem Alive.poll (h : Alive size batch stopError owed e) :
    (TransferEngine.poll e).1 = true ∧
      Alive size batch stopError batch (TransferEngine.poll e).2 := by
  have hnever : e.looks + 1 ≠ e.endsAt := Nat.ne_of_gt (Nat.lt_succ_of_le h.endsAt_le)
  have hpoll : TransferEngine.poll e =
      (true, { e with looks := e.looks + 1, owed := e.batch }) := by
    simp only [TransferEngine.poll, Steered.poll, h.streaming, if_true, if_neg hnever]
  rw [hpoll]
  exact ⟨rfl, h.streaming, h.attached, h.transferSize_eq, h.batch_eq, h.batch_eq,
    Nat.le_succ_of_le h.endsAt_le, h.stopError_eq⟩

theorem Alive.advance_zero (h : Alive size batch stopError 0 e) :
    TransferEngine.advance e = .finish () e := by
  have hnone : ¬ (e.streaming = true ∧ e.attached = true ∧ 0 < e.owed) := by
    rw [h.owed_eq]
    exact fun hsome => Nat.lt_irrefl 0 hsome.2.2
  exact if_neg hnone

theorem Alive.advance_succ (h : Alive size batch stopError (owed + 1) e) :
    ∃ dest resume, TransferEngine.advance e = .pull dest resume ∧ dest.length = size ∧
      (∀ bytes, ∃ next, resume (.delivered ⟨.proceed, bytes⟩) = .finish () next ∧
        Alive size batch stopError owed next) ∧
      ∀ bytes, ∃ next, resume (.delivered ⟨.terminate, bytes⟩) = .finish () next ∧
        Spent stopError next := by
  have howed : 0 < e.owed := h.owed_eq ▸ Nat.succ_pos owed
  refine ⟨_, _, if_pos ⟨h.streaming, h.attached, howed⟩, ?_, fun bytes => ⟨_, rfl, ?_⟩,
    fun bytes => ⟨_, rfl, ⟨rfl, h.stopError_eq⟩⟩⟩
  · rw [offered, List.length_replicate]
    exact h.transferSize_eq
  · exact ⟨h.streaming, h.attached, h.transferSize_eq, h.batch_eq, congrArg (· - 1) h.owed_eq,
      h.endsAt_le, h.stopError_eq⟩

/-- Its moves are transfers for as long as there are some in the batch. -/
theorem Alive.pulls (h : Alive size batch stopError owed e) (hpulls : Pulls size moves e n last) :
    (∃ rest, Alive size batch stopError rest last) ∧ n = min moves.length owed := by
  induction hpulls generalizing owed with
  | done => exact ⟨⟨owed, h⟩, by simp⟩
  | idle hadvance _ ih =>
      cases owed with
      | zero =>
          cases hadvance.symm.trans h.advance_zero
          obtain ⟨hlast, hn⟩ := ih h
          exact ⟨hlast, by simpa using hn⟩
      | succ owed =>
          obtain ⟨_, _, hpull, _⟩ := h.advance_succ
          cases hadvance.symm.trans hpull
  | pull hadvance hbytes hresume _ ih =>
      cases owed with
      | zero => cases hadvance.symm.trans h.advance_zero
      | succ owed =>
          obtain ⟨_, _, hpull, _, hproceed, _⟩ := h.advance_succ
          cases hadvance.symm.trans hpull
          obtain ⟨next, hnext, halive⟩ := hproceed _
          cases hresume.symm.trans hnext
          obtain ⟨hlast, hn⟩ := ih halive
          refine ⟨hlast, ?_⟩
          rw [List.length_cons, hn]
          omega

/-- So it drains, once asked, in pauses in which it moves. -/
theorem Alive.drains (h : Alive size batch stopError owed e) (hbatch : 1 ≤ batch)
    (hpauses : ∀ pause ∈ pauses, pause.InTime limit ∧ OnlyEngine pause.moves ∧
      pause.moves ≠ []) : Drains size batch limit pauses (TransferEngine.poll e).2 := by
  refine drains_of_kept (Alive size batch stopError batch) (fun pause hmem => ?_) ?_ h.poll.2
  · obtain ⟨htime, honly, _⟩ := hpauses pause hmem
    exact ⟨htime, honly⟩
  · intro pause hmem e n last h hpulls
    obtain ⟨_, _, hmoves⟩ := hpauses pause hmem
    obtain ⟨⟨owed, hlast⟩, hn⟩ := h.pulls hpulls
    have hpos := List.length_pos_iff.mpr hmoves
    exact ⟨by omega, by omega, hlast.poll.2⟩

end Steered

end IqTransmit
