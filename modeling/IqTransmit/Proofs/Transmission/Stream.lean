import IqTransmit.Proofs.Engine.Start
import IqTransmit.Proofs.Engine.Stop
import IqTransmit.Proofs.Sink.Integrity

/-!
The stream of a transmission. The slots that were asked for are those that were queued, in order,
with slots of silence between them where the queue was empty; and from the moment at which the last
slot was queued there is none of these any more. So the last slot of silence is the end of what is
written.
-/

namespace IqTransmit

/-- The slots `sent` are `slots`, with slots of silence between them. -/
inductive Interrupted (size : Nat) : List Slot → List Slot → Prop where
  | nil : Interrupted size [] []
  | slot {slots sent : List Slot} (slot : Slot) : Interrupted size slots sent →
      Interrupted size (slot :: slots) (slot :: sent)
  | silence {slots sent : List Slot} : Interrupted size slots sent →
      Interrupted size slots (List.replicate size 0 :: sent)

/-- The complete stream of some samples: their scalar bytes in whole slots, with silence for one
sample at least behind them, and five slots of silence. There may be more slots of silence between
these, but none behind the last. -/
def Complete (size : Nat) (samples : List Sample) (written : List Int8) : Prop :=
  ∃ (bytes : List Int8) (slots sent : List Slot),
    Cs8.Converter.scalar.convert samples (2 * samples.length) = .ok bytes ∧
    (∀ slot ∈ slots, slot.length = size) ∧ 2 ≤ size - bytes.length % size ∧
    slots.flatten = bytes ++ List.replicate (size - bytes.length % size) 0 ∧
    Interrupted size (slots ++ List.replicate 4 (List.replicate size 0)) sent ∧
    written = (sent ++ [List.replicate size 0]).flatten

namespace Interrupted

variable {size : Nat} {slots sent more : List Slot}

theorem append (h : Interrupted size slots sent) (more : List Slot) :
    Interrupted size (slots ++ more) (sent ++ more) := by
  induction h with
  | nil =>
      induction more with
      | nil => exact .nil
      | cons slot more ih => exact .slot slot ih
  | slot slot _ ih => exact .slot slot ih
  | silence _ ih => exact .silence ih

/-- As long as a stream flows, drains of whole slots ask for the queued slots and for silence. -/
theorem of_answers {given : List (Drainer × Delivery)} (h : Feed.Answers slots given)
    (hproceed : ∀ answer ∈ given, answer.2.status = .proceed)
    (hlength : ∀ slot ∈ given.filterMap fun answer => answer.2.transfer?, slot.length = size) :
    Interrupted size slots (given.filterMap fun answer => answer.2.transfer?) := by
  induction h with
  | nil => exact .nil
  | slot drainer slot _ ih =>
      refine .slot slot (ih (fun answer hmem => hproceed answer (List.mem_cons_of_mem _ hmem)) ?_)
      exact fun other hmem => hlength other (List.mem_cons_of_mem _ hmem)
  | @silence slots given drainer status count _ ih =>
      obtain rfl : status = .proceed := hproceed _ List.mem_cons_self
      obtain rfl : count = size := by
        rw [← hlength (List.replicate count 0) List.mem_cons_self, List.length_replicate]
      refine .silence (ih (fun answer hmem => hproceed answer (List.mem_cons_of_mem _ hmem)) ?_)
      exact fun other hmem => hlength other (List.mem_cons_of_mem _ hmem)

end Interrupted

namespace TransmitSink

variable {origin : Output} {start s t : TransmitSink FileEngine} {taken : List Sample}

/-- The slots queued since a fresh start and the flush slot are the bytes of the samples taken, with
silence behind them. -/
theorem Streamed.flushed_flatten (h : Streamed start taken s) (ho : start.Invariant)
    (hfresh : start.Fresh) {pushed popped : List Slot}
    (hflow : start.feed.Flow s.feed pushed popped)
    (hbytes : pushed.flatten ++ s.pending = start.pending ++ Cs8.bytesOf taken) :
    (∀ slot ∈ pushed ++ [s.flushSlot], slot.length = start.config.slotSize) ∧
      2 ≤ start.config.slotSize - (Cs8.bytesOf taken).length % start.config.slotSize ∧
      (pushed ++ [s.flushSlot]).flatten = Cs8.bytesOf taken ++
        List.replicate (start.config.slotSize -
          (Cs8.bytesOf taken).length % start.config.slotSize) 0 := by
  obtain ⟨_, _, _, _, _, _, _, _, hoffset⟩ := h.groups_eq ho
  have hstream : start.stream taken = Cs8.bytesOf taken := by
    rw [stream, hfresh.queue_eq, hfresh.pending_eq]
    rfl
  rw [hstream] at hoffset
  have hsize : s.feed.ring.slotSize = start.config.slotSize :=
    h.invariant.slotSize_eq.trans (congrArg _ h.config_eq)
  have hflush := h.invariant.toSound.flushSlot_length
  refine ⟨fun slot hmem => ?_, ?_, ?_⟩
  · rcases List.mem_append.mp hmem with hmem | hmem
    · exact (hflow.length_eq slot hmem).trans ho.slotSize_eq
    · rw [List.mem_singleton.mp hmem, hflush, hsize]
  · have hlt := h.invariant.fillOffset_lt
    have heven := h.invariant.fillOffset_even
    have hsizes := h.invariant.slotSize_even
    rw [hsize] at hlt hsizes
    rw [hoffset]
    omega
  · rw [hfresh.pending_eq, List.nil_append] at hbytes
    rw [List.flatten_append, List.flatten_singleton, flushSlot, ← List.append_assoc, hbytes,
      hoffset, h.invariant.scratch_length, hsize]

/-- A stop that goes well leaves the complete stream of the samples taken since a fresh start. -/
theorem Streamed.complete (h : Streamed start taken s) (ho : start.Invariant)
    (hfresh : start.Fresh) (hstop : s.feed.stopping = false)
    (hsent : Tended.SentAll origin { s with phase := .stopping } t) :
    ∃ slots e, t.engine = some e ∧ origin.sendEach slots = (.ok (), e.output) ∧
      Complete start.config.slotSize taken slots.flatten := by
  obtain ⟨g, e, hflushed, hlength, he, hsends⟩ := hsent
  obtain ⟨pushed, popped, hflow, hbytes⟩ := h.flow
  obtain ⟨popped', hflow'⟩ := hflushed.flow
  obtain ⟨hslots, hpadding, hflatten⟩ := h.flushed_flatten ho hfresh hflow hbytes
  have hall := hflow.trans hflow'
  have hsize : s.scratch.length = start.config.slotSize :=
    h.invariant.scratch_length.trans (h.invariant.slotSize_eq.trans (congrArg _ h.config_eq))
  have hsilent : silentSlot { s with phase := .stopping } =
      List.replicate start.config.slotSize 0 := congrArg (List.replicate · 0) hsize
  -- the last slot of silence is still queued, and behind it there is nothing
  obtain ⟨queued, hqueue⟩ := List.getLast?_eq_some_iff.mp hflushed.last_eq
  rw [hsilent] at hqueue
  have hlast : lastSlots { s with phase := .stopping } =
      s.flushSlot :: List.replicate 4 (List.replicate start.config.slotSize 0) ++
        [List.replicate start.config.slotSize 0] := by
    rw [lastSlots, hsilent]
    rfl
  have hcontents : (popped ++ popped') ++ queued =
      (pushed ++ [s.flushSlot]) ++
        List.replicate 4 (List.replicate start.config.slotSize 0) := by
    have hsame := hall.contents_eq
    have hnone : start.feed.ring.contents = [] := hfresh.queue_eq
    have hkept : g.feed.ring.contents =
      queued ++ [List.replicate start.config.slotSize 0] := hqueue
    rw [hnone, hkept, hlast, List.nil_append, ← List.append_assoc, ← List.append_assoc] at hsame
    rw [← List.append_cancel_right hsame, List.append_assoc]
    rfl
  have hinterrupted : Interrupted start.config.slotSize (popped ++ popped') g.feed.transfers := by
    obtain ⟨given, hgiven, hanswers, hproceed⟩ := hall.answers
    have hring : g.feed.ring.slotSize = start.config.slotSize :=
      hall.slotSize_eq.trans ho.slotSize_eq
    rw [hfresh.deliveries_eq, List.nil_append] at hgiven
    rw [Feed.transfers, hgiven, hring] at hlength
    rw [Feed.transfers, hgiven]
    exact .of_answers hanswers (hproceed (hflushed.stopping_eq.trans hstop)) hlength
  refine ⟨_, e, he, hsends, Cs8.bytesOf taken, _, g.feed.transfers ++ queued,
    Cs8.Converter.scalar.convert_of_size_eq rfl, hslots, hpadding, hflatten, ?_, ?_⟩
  · rw [← hcontents]
    exact hinterrupted.append queued
  · rw [hqueue, List.append_assoc]

end TransmitSink

end IqTransmit
