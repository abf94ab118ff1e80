import IqTransmit.Engine.File
import IqTransmit.Proofs.Engine.Output
import IqTransmit.Proofs.Sink.Flow

/-!
A file engine that drains a feed. Whatever its worker is at, the output has been written exactly the
transfers that the drains asked for, in order and each of them once; only the one that the worker
holds is still to come. The worker ends over an error of the output, or, with all of it flushed,
once it was told of the end of the stream.
-/

namespace IqTransmit

/-- The buffer of a delivery that is to be sent. -/
def Delivery.transfer? : Delivery → Option Slot
  | ⟨.proceed, bytes⟩ => some bytes
  | ⟨.terminate, _⟩ => none

namespace Feed

variable {f g : Feed} {dest : List Int8}

/-- The transfers that drains have asked for, in order. -/
def transfers (f : Feed) : List Slot := f.deliveries.filterMap fun answer => answer.2.transfer?

theorem note_transfers (f : Feed) (event : Event) :
    (f.note event).transfers =
      f.transfers ++ (event.delivery?.bind fun answer => answer.2.transfer?).toList := by
  rw [transfers, note_deliveries, List.filterMap_append, transfers]
  cases event with
  | reported notice => rfl
  | queued slot => rfl
  | sent drainer slot => rfl
  | silent drainer status size => cases status <;> rfl

/-- The stream has ended: it was stopped, and nothing of it is left. -/
structure Ended (f : Feed) : Prop where
  stopping : f.stopping = true
  len_eq : f.ring.len = 0

/-- A pull of a whole slot is for a transfer, which shortens the queue unless the stream goes on
with an empty one; or the stream has ended. -/
theorem pull_cases (hf : f.ring.Sound) (hdest : dest.length = f.ring.slotSize) :
    (∃ slot g, pull dest f = .ok (.delivered ⟨.proceed, slot⟩) g ∧ f.Drained g ∧
      slot.length = f.ring.slotSize ∧ g.transfers = f.transfers ++ [slot] ∧
      (f.stopping = true ∨ 0 < f.ring.len → g.ring.len < f.ring.len)) ∨
    ∃ bytes g, pull dest f = .ok (.delivered ⟨.terminate, bytes⟩) g ∧ f.Drained g ∧
      g.transfers = f.transfers ∧ f.Ended := by
  have hlen : ¬ f.Serves dest.length → f.ring.len = 0 := by
    intro hs
    cases hempty : f.ring.isEmpty with
    | true => simpa [SlotRing.isEmpty] using hempty
    | false => exact absurd ⟨hdest, hempty⟩ hs
  rcases drain_cases hf .engine dest with ⟨hs, hd⟩ | ⟨hs, hstop, hd⟩ | ⟨hs, hflows, hd⟩
  · have hpos : f.ring.len ≠ 0 := by simpa [SlotRing.isEmpty] using hs.2
    refine .inl ⟨_, _, by rw [pull, hd], .drain .refl hd, ?_, note_transfers _ _, fun _ => ?_⟩
    · exact SlotRing.slotAt_length hf hf.tail_lt
    · exact Nat.sub_one_lt hpos
  · exact .inr ⟨_, _, by rw [pull, hd], .drain .refl hd,
      (note_transfers _ _).trans (List.append_nil _), hstop, hlen hs⟩
  · refine .inl ⟨_, _, by rw [pull, hd], .drain .refl hd, ?_, ?_, ?_⟩
    · rw [List.length_replicate, hdest]
    · have hunder : (f.underrun dest.length).transfers = f.transfers :=
        (note_transfers _ _).trans (List.append_nil _)
      rw [note_transfers, hunder]
      rfl
    · rintro (hstop | hpos)
      · cases hstop.symm.trans hflows
      · exact absurd (hlen hs) (Nat.ne_of_gt hpos)

end Feed

namespace FileEngine

/-- What the worker is at, for an engine whose output was `origin` at first and is `output` now. -/
inductive Job (origin : Output) (f : Feed) (output : Output) : Bool → Worker → Prop where
  | look {buffer : List Int8} : buffer.length = f.ring.slotSize →
      origin.writeEach f.transfers = (.ok (), output) →
      Job origin f output true (.busy (.look buffer))
  | pulling {buffer : List Int8} : buffer.length = f.ring.slotSize →
      origin.writeEach f.transfers = (.ok (), output) → Job origin f output true (.pulling buffer)
  | write {slots : List Slot} {buffer : List Int8} : buffer.length = f.ring.slotSize →
      f.transfers = slots ++ [buffer] → origin.writeEach slots = (.ok (), output) →
      Job origin f output true (.busy (.write buffer))
  | close : f.Ended → origin.writeEach f.transfers = (.ok (), output) →
      Job origin f output true (.busy .close)
  | done : f.Ended → origin.sendEach f.transfers = (.ok (), output) →
      Job origin f output false (.ended .done)
  | failed {problem : String} {lost : Output} :
      origin.sendEach f.transfers = (.error problem, lost) → output = lost.abandon →
      Job origin f output false (.ended (.failed problem))

/-- An engine that was started on a feed with the output `origin` and was not stopped yet. -/
structure Attached (origin : Output) (e : FileEngine) (f : Feed) : Prop where
  stopRequested_eq : e.stopRequested = false
  length_eq : ∀ slot ∈ f.transfers, slot.length = f.ring.slotSize
  job : ∃ worker, e.worker = some worker ∧ Job origin f e.output e.streaming worker

/-- The steps that a worker is from its end, or from what it does after a transfer. -/
def stepsLeft : Worker → Nat
  | .busy (.write _) => 4
  | .busy (.look _) => 3
  | .pulling _ => 2
  | .busy .close => 1
  | .ended _ => 0

/-- The steps that are left to the worker of an engine. -/
def rank (e : FileEngine) : Nat := (e.worker.map stepsLeft).getD 0

/-- A bound on the steps of an engine until its end, if nothing more is queued. -/
def work (e : FileEngine) (f : Feed) : Nat := 3 * f.ring.len + e.rank

variable {origin : Output} {e e' : FileEngine} {f g : Feed}

theorem Attached.streaming_iff (h : Attached origin e f) : e.streaming = true ↔ 0 < e.rank := by
  obtain ⟨_, hworker, hjob⟩ := h.job
  rw [rank, hworker]
  generalize e.streaming = streaming at hjob
  cases hjob <;> simp [stepsLeft]

theorem Attached.rank_le (h : Attached origin e f) : e.rank ≤ 4 := by
  obtain ⟨_, hworker, hjob⟩ := h.job
  rw [rank, hworker]
  generalize e.streaming = streaming at hjob
  cases hjob <;> simp [stepsLeft]

/-- A write of the worker goes well, or the worker has failed. -/
theorem Attached.written {slots : List Slot} {buffer : List Int8} (h : Attached origin e f)
    (hstreams : e.streaming = true) (hlen : buffer.length = f.ring.slotSize)
    (hslots : f.transfers = slots ++ [buffer])
    (hwritten : origin.writeEach slots = (.ok (), e.output)) :
    Attached origin (e.perform (.write buffer)) f ∧ (e.perform (.write buffer)).rank ≤ 3 := by
  have hconcat := Output.writeEach_concat hwritten buffer
  rw [← hslots] at hconcat
  simp only [perform, writeTransfer]
  cases hwrite : e.output.write buffer with
  | mk result output =>
      rw [hwrite] at hconcat
      cases result with
      | ok _ =>
          exact ⟨⟨h.stopRequested_eq, h.length_eq, _, rfl, hstreams ▸ .look hlen hconcat⟩, le_rfl⟩
      | error problem =>
          have hsend : origin.sendEach f.transfers = (.error problem, output) := by
            rw [Output.sendEach, hconcat]
          exact ⟨⟨h.stopRequested_eq, h.length_eq, _, rfl, .failed hsend rfl⟩, Nat.zero_le 3⟩

/-- The flush at the end goes well, or the worker has failed; in any case it has ended. -/
theorem Attached.closed (h : Attached origin e f) (hended : f.Ended)
    (hwritten : origin.writeEach f.transfers = (.ok (), e.output)) :
    Attached origin (e.perform .close) f ∧ (e.perform .close).rank = 0 := by
  have hsend : origin.sendEach f.transfers = e.output.flush := by
    rw [Output.sendEach, hwritten]
  simp only [perform, closeRun]
  cases hflush : e.output.flush with
  | mk result output =>
      rw [hflush] at hsend
      cases result with
      | ok _ => exact ⟨⟨h.stopRequested_eq, h.length_eq, _, rfl, .done hended hsend⟩, rfl⟩
      | error problem => exact ⟨⟨h.stopRequested_eq, h.length_eq, _, rfl, .failed hsend rfl⟩, rfl⟩

/-- One move of an engine drains the feed. Unless the worker has ended it is a step of it, which
leaves less work if the stream is stopping, or if there are slots and the move takes none. -/
theorem Attached.advance (h : Attached origin e f) (hf : f.ring.Sound) :
    ∃ e' g, e.advance.run Feed.pull f = .ok ((), e') g ∧ Attached origin e' g ∧ f.Drained g ∧
      (f.stopping = true ∨ 0 < f.ring.len ∧ g.ring.len = f.ring.len →
        e'.work g + min 1 e.rank ≤ e.work f) := by
  obtain ⟨worker, hworker, hjob⟩ := h.job
  have hstop := h.stopRequested_eq
  have hstreaming : ∃ streaming, e.streaming = streaming := ⟨_, rfl⟩
  obtain ⟨streaming, hstreams⟩ := hstreaming
  rw [hstreams] at hjob
  have hrank : e.rank = stepsLeft worker := by
    rw [rank, hworker]
    rfl
  simp only [work, hrank]
  cases hjob with
  | @look buffer hlen hwritten =>
      have hnext : e.perform (.look buffer) = { e with worker := some (.pulling buffer) } := by
        rw [perform, if_neg (hstop ▸ nofun)]
      refine ⟨{ e with worker := some (.pulling buffer) }, f, ?_,
        ⟨hstop, h.length_eq, _, rfl, hstreams ▸ .pulling hlen hwritten⟩, .refl, fun _ => ?_⟩
      · rw [FileEngine.advance, hworker, ← hnext]
        rfl
      · simp only [rank, stepsLeft, Option.map_some, Option.getD_some]
        omega
  | @pulling buffer hlen hwritten =>
      have hrun {delivery : Delivery} {task : Task} {g : Feed}
          (hpull : Feed.pull buffer f = .ok (.delivered delivery) g)
          (htask : afterPull (.delivered delivery) = some task) :
          e.advance.run Feed.pull f = .ok ((), { e with worker := some (.busy task) }) g := by
        rw [FileEngine.advance, hworker, Action.run, hpull]
        simp only [Action.run, receive, htask]
      rcases Feed.pull_cases hf hlen with
        ⟨slot, g, hpull, hdrained, hslot, htransfers, hless⟩ |
        ⟨bytes, g, hpull, hdrained, htransfers, hended⟩
      · obtain ⟨_, hflow, _⟩ := hdrained.flow hf
        have hlengths : ∀ other ∈ g.transfers, other.length = g.ring.slotSize := by
          intro other hmem
          rw [htransfers] at hmem
          rw [hflow.slotSize_eq]
          rcases List.mem_append.mp hmem with hmem | hmem
          · exact h.length_eq other hmem
          · rw [List.mem_singleton.mp hmem, hslot]
        refine ⟨_, g, hrun hpull rfl, ⟨hstop, hlengths, _, rfl, ?_⟩, hdrained, fun hcond => ?_⟩
        · exact hstreams ▸ .write (hslot.trans hflow.slotSize_eq.symm) htransfers hwritten
        · have hlt := hless (hcond.imp id And.left)
          simp only [rank, stepsLeft, Option.map_some, Option.getD_some]
          omega
      · obtain ⟨popped, hflow, hkept⟩ := hdrained.flow hf
        have hlen' := hflow.length_eq_add
        have hzero := hended.len_eq
        rw [List.length_nil] at hlen'
        refine ⟨_, g, hrun hpull rfl, ⟨hstop, ?_, _, rfl, ?_⟩, hdrained, fun _ => ?_⟩
        · rw [htransfers, hflow.slotSize_eq]
          exact h.length_eq
        · exact hstreams ▸ .close ⟨hkept.trans hended.stopping, by omega⟩
            (htransfers.symm ▸ hwritten)
        · simp only [rank, stepsLeft, Option.map_some, Option.getD_some]
          omega
  | @write slots buffer hlen hslots hwritten =>
      obtain ⟨hattached, hle⟩ := h.written hstreams hlen hslots hwritten
      refine ⟨_, f, by rw [FileEngine.advance, hworker]; rfl, hattached, .refl, fun _ => ?_⟩
      simp only [stepsLeft]
      omega
  | close hended hwritten =>
      obtain ⟨hattached, hzero⟩ := h.closed hended hwritten
      refine ⟨_, f, by rw [FileEngine.advance, hworker]; rfl, hattached, .refl, fun _ => ?_⟩
      simp only [stepsLeft]
      omega
  | done hended hsent =>
      exact ⟨e, f, by rw [FileEngine.advance, hworker]; rfl, h, .refl, fun _ => by rw [hrank]; rfl⟩
  | failed hsent hlost =>
      exact ⟨e, f, by rw [FileEngine.advance, hworker]; rfl, h, .refl, fun _ => by rw [hrank]; rfl⟩

/-! ## What the fill side does -/

/-- Changes of a feed that push or report, or mark the stream as stopping, while it goes on. -/
theorem Attached.of_transfers_eq (h : Attached origin e f) (hflows : f.stopping = false)
    (htransfers : g.transfers = f.transfers) (hsize : g.ring.slotSize = f.ring.slotSize) :
    Attached origin e g := by
  obtain ⟨worker, hworker, hjob⟩ := h.job
  refine ⟨h.stopRequested_eq, ?_, worker, hworker, ?_⟩
  · rw [htransfers, hsize]
    exact h.length_eq
  generalize e.streaming = streaming at hjob ⊢
  have hgoes : ¬ f.Ended := fun hended => nomatch hflows.symm.trans hended.stopping
  cases hjob with
  | look hlen hwritten => exact .look (hlen.trans hsize.symm) (htransfers ▸ hwritten)
  | pulling hlen hwritten => exact .pulling (hlen.trans hsize.symm) (htransfers ▸ hwritten)
  | write hlen hslots hwritten =>
      exact .write (hlen.trans hsize.symm) (htransfers.trans hslots) hwritten
  | close hended _ => exact absurd hended hgoes
  | done hended _ => exact absurd hended hgoes
  | failed hsent hlost => exact .failed (htransfers ▸ hsent) hlost

theorem Attached.enqueue (h : Attached origin e f) (hflows : f.stopping = false) (slot : Slot) :
    Attached origin e (f.enqueue slot) :=
  h.of_transfers_eq hflows ((Feed.note_transfers _ _).trans (List.append_nil _)) rfl

theorem Attached.withStopping (h : Attached origin e f) (hflows : f.stopping = false) :
    Attached origin e { f with stopping := true } := h.of_transfers_eq hflows rfl rfl

/-! ## The end of a run -/

/-- The output of an engine is what a run of writes that failed has left. -/
def Lost (origin output : Output) : Prop :=
  ∃ slots problem lost, origin.sendEach slots = (.error problem, lost) ∧ output = lost.abandon

/-- An engine that streams no more has failed, or has written and flushed all transfers. -/
theorem Attached.ended (h : Attached origin e f) (hstreams : e.streaming = false) :
    (e.worker = some (.ended .done) ∧ f.Ended ∧ origin.sendEach f.transfers = (.ok (), e.output)) ∨
      ∃ problem, e.worker = some (.ended (.failed problem)) ∧ Lost origin e.output := by
  obtain ⟨worker, hworker, hjob⟩ := h.job
  rw [hstreams] at hjob
  cases hjob with
  | done hended hsent => exact .inl ⟨hworker, hended, hsent⟩
  | failed hsent hlost => exact .inr ⟨_, hworker, _, _, _, hsent, hlost⟩

/-- A stop of an engine whose worker is done goes well and leaves the output. -/
theorem stop_of_done (h : e.worker = some (.ended .done)) :
    ∃ e', e.stop = .finish (.ok ()) e' ∧ e'.output = e.output := by
  simp only [stop, h]
  exact ⟨_, rfl, rfl⟩

/-- A stop of an engine whose worker has failed answers with an error and leaves the output. -/
theorem stop_of_failed {problem : String} (h : e.worker = some (.ended (.failed problem))) :
    ∃ text e', e.stop = .finish (.error text) e' ∧ e'.output = e.output := by
  simp only [stop, h]
  exact ⟨_, _, rfl, rfl⟩

end FileEngine

end IqTransmit
