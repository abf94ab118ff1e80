import IqTransmit.Engine.Steered
import IqTransmit.Proofs.Groups
import IqTransmit.Proofs.Sink.Reachable

/-!
The stream of a sink. While it is only filled and drained, the slots that were sent, those that are
queued and the pending bytes are, in this order, the bytes of all samples that were taken. They are
cut where the slots end, however the samples were cut into batches.
-/

namespace IqTransmit.TransmitSink

variable {E : Type} {origin s t : TransmitSink E} {taken : List Sample}

/-- What filling and draining have made of `origin` once `taken` were taken: the bytes of these went
behind the pending ones, and the slots pushed came off the front. -/
structure Streamed (origin : TransmitSink E) (taken : List Sample) (s : TransmitSink E) : Prop where
  invariant : s.Invariant
  config_eq : s.config = origin.config
  flow : ∃ pushed popped, origin.feed.Flow s.feed pushed popped ∧
    pushed.flatten ++ s.pending = origin.pending ++ Cs8.bytesOf taken

theorem streamed_refl (h : origin.Invariant) : Streamed origin [] origin :=
  ⟨h, rfl, [], [], .refl h.ring, (List.append_nil _).symm⟩

theorem Streamed.moved (h : Streamed origin taken s) (hm : Moved s t) :
    Streamed origin taken t := by
  obtain ⟨pushed, popped, hflow, hbytes⟩ := h.flow
  obtain ⟨more, hmore, _⟩ := hm.drained.flow h.invariant.ring
  refine ⟨hm.invariant h.invariant, hm.config_eq.trans h.config_eq, pushed ++ [], popped ++ more,
    hflow.trans hmore, ?_⟩
  rw [List.append_nil, hm.pending_eq, hbytes]

theorem Streamed.worked {input : List Sample} {count : Nat} (h : Streamed origin taken s)
    (hw : Worked input s count t) : Streamed origin (taken ++ input.take count) t := by
  obtain ⟨pushed, popped, hflow, hbytes⟩ := h.flow
  obtain ⟨_, pushed', popped', hflow', hbytes', _⟩ := hw.flow h.invariant.toSound
  refine ⟨hw.invariant h.invariant, hw.config_eq.trans h.config_eq, _, _, hflow.trans hflow', ?_⟩
  calc (pushed ++ pushed').flatten ++ t.pending
      = pushed.flatten ++ (pushed'.flatten ++ t.pending) := by
        rw [List.flatten_append, List.append_assoc]
    _ = (pushed.flatten ++ s.pending) ++ Cs8.bytesOf (input.take count) := by
        rw [hbytes', List.append_assoc]
    _ = origin.pending ++ Cs8.bytesOf (taken ++ input.take count) := by
        rw [hbytes, Cs8.bytesOf_append, List.append_assoc]

/-- The bytes of the slots queued in `origin`, of its pending bytes, and of samples behind these. -/
def stream (origin : TransmitSink E) (taken : List Sample) : List Int8 :=
  origin.queue.flatten ++ origin.pending ++ Cs8.bytesOf taken

/-- The slots sent and queued are the whole groups of the stream, the pending bytes are the rest. -/
theorem Streamed.groups_eq (h : Streamed origin taken s) (ho : origin.Invariant) :
    ∃ sent given, s.feed.sentSlots = origin.feed.sentSlots ++ sent ∧
      s.feed.deliveries = origin.feed.deliveries ++ given ∧ Feed.Answers sent given ∧
      sent.flatten ++ s.queue.flatten ++ s.pending = origin.stream taken ∧
      groups origin.config.slotSize (origin.stream taken) = sent ++ s.queue ∧
      (origin.stream taken).drop ((origin.stream taken).length / origin.config.slotSize *
        origin.config.slotSize) = s.pending ∧
      (origin.stream taken).length % origin.config.slotSize = s.fillOffset := by
  obtain ⟨pushed, sent, hflow, hbytes⟩ := h.flow
  obtain ⟨given, hgiven, hanswers, _⟩ := hflow.answers
  have hlt := h.invariant.fillOffset_lt
  rw [hflow.slotSize_eq, ho.slotSize_eq] at hlt
  have hslots : sent ++ s.queue = origin.queue ++ pushed := hflow.contents_eq.symm
  -- the slots queued at first are whole, and so are those pushed since
  have hlength : ∀ slot ∈ sent ++ s.queue, slot.length = origin.config.slotSize := by
    intro slot hslot
    rw [hslots] at hslot
    rw [← ho.slotSize_eq]
    rcases List.mem_append.mp hslot with hold | hnew
    · exact SlotRing.length_of_mem_contents ho.ring hold
    · exact hflow.length_eq slot hnew
  have hstream : (sent ++ s.queue).flatten ++ s.pending = origin.stream taken := by
    rw [hslots, List.flatten_append, List.append_assoc, hbytes, stream, List.append_assoc]
  have hpending : s.pending.length = s.fillOffset := h.invariant.toSound.pending_length
  obtain ⟨hgroups, hrest, hoffset⟩ :=
    groups_of_flatten_append hlength (hpending.trans_lt hlt) hstream
  refine ⟨sent, given, hflow.sent_eq, hgiven, hanswers, ?_, hgroups, hrest, hoffset.trans hpending⟩
  rw [← List.flatten_append]
  exact hstream

/-- A drain answers, and notes, the oldest queued slot or silence. -/
theorem drain_answers (hs : s.feed.ring.Sound) (drainer : Drainer) (dest : List Int8) :
    ∃ delivery next, drain drainer dest s = .ok delivery next ∧
      next.feed.deliveries = s.feed.deliveries ++ [(drainer, delivery)] ∧
      (s.queue.head? = some delivery.bytes ∨ delivery.bytes = List.replicate dest.length 0) := by
  obtain ⟨delivery, g, he, hnoted, hbytes⟩ := Feed.drain_noted hs drainer dest
  refine ⟨delivery, { s with feed := g }, ?_, hnoted, hbytes⟩
  rw [drain, he]

/-! ## Runs -/

variable [TransferEngine E]

theorem Streamed.rounds {p q : Progress E} {input rest : List Sample}
    (h : Streamed origin taken p.sink) (hr : Call.Rounds input p rest q) :
    ∃ used, used ++ rest = input ∧ Streamed origin (taken ++ used) q.sink := by
  induction hr with
  | refl => exact ⟨[], rfl, by rwa [List.append_nil]⟩
  | @step rest q r count _ he ih =>
      obtain ⟨used, hused, hq⟩ := ih
      have hwork := (Call.work_ends rest hq.invariant.toSound).ok he
      refine ⟨used ++ rest.take count, ?_, ?_⟩
      · rw [List.append_assoc, List.take_append_drop, hused]
      · rw [← List.append_assoc]
        exact hq.worked hwork

theorem Streamed.workAll {p q : Progress E} {input : List Sample}
    (h : Streamed origin taken p.sink) (he : Call.workAll input p = .ok () q) :
    Streamed origin (taken ++ input) q.sink := by
  obtain ⟨used, hused, hq⟩ := h.rounds ((Call.workAll_ends _ h.invariant.toSound).ok he)
  rw [List.append_nil] at hused
  rwa [hused] at hq

/-- Runs from `origin` of calls of `work` and `workAll`, with drains and actions of the engine
between them, and the samples `taken` in all by the calls. Every pause and every gap of a call is
as it likes. A call that gives up takes nothing more. -/
inductive Filled (origin : TransmitSink E) : List Sample → TransmitSink E → Prop where
  | refl : Filled origin [] origin
  | drain {taken : List Sample} {s t : TransmitSink E} {drainer : Drainer} {dest : List Int8}
      {delivery : Delivery} : Filled origin taken s →
      TransmitSink.drain drainer dest s = .ok delivery t → Filled origin taken t
  | act {α : Type} {taken : List Sample} {p q : Progress E} {action : E → Action E α}
      {absent result : α} : Filled origin taken p.sink → Call.act action absent p = .ok result q →
      Filled origin taken q.sink
  | work {taken input : List Sample} {p q : Progress E} {count : Nat} :
      Filled origin taken p.sink → Call.work input p = .ok count q →
      Filled origin (taken ++ input.take count) q.sink
  | rounds {taken used rest : List Sample} {p q : Progress E} :
      Filled origin taken p.sink → Call.Rounds (used ++ rest) p rest q →
      Filled origin (taken ++ used) q.sink
  | workAll {taken input : List Sample} {p q : Progress E} :
      Filled origin taken p.sink → Call.workAll input p = .ok () q →
      Filled origin (taken ++ input) q.sink
  | gaveUp {taken input : List Sample} {p q : Progress E} {halt : Halt} :
      Filled origin taken p.sink → Call.work input p = .error halt q → Filled origin taken q.sink

theorem Filled.streamed (hf : Filled origin taken s) (h : origin.Invariant) :
    Streamed origin taken s := by
  induction hf with
  | refl => exact streamed_refl h
  | drain _ he ih => exact ih.moved (moved_of_drain he)
  | act _ he ih => exact ih.moved ((Call.act_ends _ _ ih.invariant.ring).ok he)
  | work _ he ih => exact ih.worked ((Call.work_ends _ ih.invariant.toSound).ok he)
  | rounds _ hr ih =>
      obtain ⟨used, hused, hq⟩ := ih.rounds hr
      rwa [List.append_cancel_right hused] at hq
  | workAll _ he ih => exact ih.workAll he
  | gaveUp _ he ih => exact ih.moved ((Call.work_ends _ ih.invariant.toSound).error he).moved

/-- Whatever is taken in and whatever is drained, what was sent, what is queued and what is pending
are together the stream: the slots queued at first, the bytes pending then, and the scalar bytes of
all samples taken. The stream alone tells which slots these are and what is pending, so that it does
not matter how the samples were cut into batches. Every answer to a drain was the next slot or
silence, and it is so again; no call faults. -/
theorem stream_integrity (hr : Reachable origin) (hf : Filled origin taken s) :
    ∃ bytes stream sent given,
      Cs8.Converter.scalar.convert taken (2 * taken.length) = .ok bytes ∧
      stream = origin.queue.flatten ++ origin.pending ++ bytes ∧
      s.feed.sentSlots = origin.feed.sentSlots ++ sent ∧
      s.feed.deliveries = origin.feed.deliveries ++ given ∧ Feed.Answers sent given ∧
      sent.flatten ++ s.queue.flatten ++ s.pending = stream ∧
      groups origin.config.slotSize stream = sent ++ s.queue ∧
      stream.drop (stream.length / origin.config.slotSize * origin.config.slotSize) = s.pending ∧
      stream.length % origin.config.slotSize = s.fillOffset ∧
      (∀ drainer dest, ∃ delivery next, drain drainer dest s = .ok delivery next ∧
        next.feed.deliveries = s.feed.deliveries ++ [(drainer, delivery)] ∧
        (s.queue.head? = some delivery.bytes ∨
          delivery.bytes = List.replicate dest.length 0)) ∧
      ∀ input pauses gaps,
        (∀ count q, Call.work input ⟨s, pauses, gaps⟩ = .ok count q → count ≤ input.length) ∧
        (∀ fault q, Call.work input ⟨s, pauses, gaps⟩ ≠ .error (.fault fault) q) ∧
        ∀ fault q, Call.workAll input ⟨s, pauses, gaps⟩ ≠ .error (.fault fault) q := by
  have ho := hr.invariant
  have h := hf.streamed ho
  obtain ⟨sent, given, hsent, hgiven, hanswers, hstream, hgroups, hrest, hoffset⟩ :=
    h.groups_eq ho
  refine ⟨Cs8.bytesOf taken, origin.stream taken, sent, given,
    Cs8.Converter.scalar.convert_of_size_eq rfl, rfl, hsent, hgiven, hanswers, hstream, hgroups,
    hrest, hoffset, drain_answers h.invariant.ring, ?_⟩
  intro input pauses gaps
  have hs := h.invariant.toSound
  refine ⟨fun count q he => ?_, fun fault q => ?_, fun fault q => ?_⟩
  · exact ((Call.work_ends (p := ⟨s, pauses, gaps⟩) input hs).ok he).count_le
  · exact Call.work_ne_fault (p := ⟨s, pauses, gaps⟩) hs fault
  · exact Call.workAll_ne_fault (p := ⟨s, pauses, gaps⟩) hs fault

/-- One sample, then two more in one call, and a drain: the first two were sent. -/
theorem stream_integrity_of_three_samples :
    ∃ (origin s : TransmitSink Steered) (sent : List Slot),
      Reachable origin ∧
      Filled origin [⟨⟨0x3f800000⟩, ⟨0⟩⟩, ⟨⟨0xbf800000⟩, ⟨0⟩⟩, ⟨⟨0⟩, ⟨0x3f800000⟩⟩] s ∧
      s.feed.sentSlots = origin.feed.sentSlots ++ sent ∧
      sent ++ s.queue = [[127, 0, -127, 0]] ∧ s.pending = [0, 127] := by
  have hmade := Reachable.make (rfl : make { bufferCount := 2, slotSize := 4 }
    (none : Option Steered) = .ok _)
  have hstart {o : TransmitSink Steered} (_ : Reachable o) : Filled o [] o := .refl
  have hfirst := Filled.work (p := ⟨_, [], []⟩) (hstart hmade)
    (rfl : Call.work [⟨⟨0x3f800000⟩, ⟨0⟩⟩] ⟨_, [], []⟩ = .ok _ _)
  have hall := Filled.workAll (p := ⟨_, [], []⟩) hfirst
    (rfl : Call.workAll [⟨⟨0xbf800000⟩, ⟨0⟩⟩, ⟨⟨0⟩, ⟨0x3f800000⟩⟩] ⟨_, [], []⟩ = .ok _ _)
  have hdrained := Filled.drain hall
    (rfl : TransmitSink.drain .other [0, 0, 0, 0] _ = .ok _ _)
  obtain ⟨bytes, stream, sent, _, hbytes, hstream, hsent, _, _, _, hgroups, hrest, _⟩ :=
    stream_integrity hmade hdrained
  cases hbytes
  subst hstream
  exact ⟨_, _, sent, hmade, hdrained, hsent, hgroups.symm.trans (by decide +kernel),
    hrest.symm.trans (by decide +kernel)⟩

end IqTransmit.TransmitSink
