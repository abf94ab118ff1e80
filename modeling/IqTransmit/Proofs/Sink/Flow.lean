import IqTransmit.Proofs.Ring.Contents
import IqTransmit.Sink.Feed

/-!
The flow of slots through a feed. Whatever pushes and drains there were, the slots queued before
and those pushed are, in order, the slots popped and those queued now. A drain of any length never
faults, and it is one of three things: the oldest slot, the end of the stream, or an underrun.
-/

namespace IqTransmit.Feed

variable {f g h : Feed} {slot : Slot}

/-! ## The journal -/

/-- What drains answered, in order, and to whom. -/
def deliveries (f : Feed) : List (Drainer × Delivery) :=
  f.journal.reverse.filterMap Event.delivery?

theorem note_deliveries (f : Feed) (event : Event) :
    (f.note event).deliveries = f.deliveries ++ event.delivery?.toList := by
  simp only [deliveries, note]
  rw [List.reverse_cons, List.filterMap_append]
  cases event <;> rfl

theorem report_deliveries (f : Feed) (notice : Notice) :
    (f.report notice).deliveries = f.deliveries :=
  (note_deliveries f (.reported notice)).trans (List.append_nil _)

theorem note_queuedSlots (f : Feed) (event : Event) :
    (f.note event).queuedSlots = f.queuedSlots ++ event.queuedSlot?.toList := by
  simp only [queuedSlots, note]
  rw [List.reverse_cons, List.filterMap_append]
  cases event <;> rfl

theorem note_sentSlots (f : Feed) (event : Event) :
    (f.note event).sentSlots = f.sentSlots ++ event.sentSlot?.toList := by
  simp only [sentSlots, note]
  rw [List.reverse_cons, List.filterMap_append]
  cases event <;> rfl

/-! ## Pushes and drains as updates -/

/-- The feed after a slot was pushed. -/
def enqueue (f : Feed) (slot : Slot) : Feed :=
  { f with ring := f.ring.enqueue slot, stats.pushed := f.stats.pushed + 1 }.note (.queued slot)

/-- The feed after its oldest slot was popped. -/
def dequeue (f : Feed) (drainer : Drainer) : Feed :=
  { f with ring := f.ring.dequeue, stats.drained := f.stats.drained + 1 }.note
    (.sent drainer (f.ring.slotAt f.ring.tail))

theorem push_of_room (hf : f.ring.Sound) (hroom : f.ring.hasRoom = true)
    (hslot : slot.length = f.ring.slotSize) : push slot f = .ok true (f.enqueue slot) := by
  simp only [push]
  rw [SlotRing.tryPush_of_room hf hroom hslot]
  rfl

/-- Whether a drain with a buffer of `size` bytes gets a slot. -/
def Serves (f : Feed) (size : Nat) : Prop := size = f.ring.slotSize ∧ f.ring.isEmpty = false

theorem drain_of_serves (hf : f.ring.Sound) {dest : List Int8} (hs : f.Serves dest.length)
    (drainer : Drainer) :
    drain drainer dest f = .ok ⟨.proceed, f.ring.slotAt f.ring.tail⟩ (f.dequeue drainer) := by
  simp only [drain, pop]
  rw [if_pos hs.1, SlotRing.tryPop_of_queued hf hs.2 hs.1]
  rfl

theorem drain_of_not_serves {dest : List Int8} (hs : ¬ f.Serves dest.length)
    (drainer : Drainer) : drain drainer dest f = silence drainer dest.length f := by
  simp only [drain, pop]
  by_cases hsize : dest.length = f.ring.slotSize
  · have hempty : f.ring.isEmpty = true := by
      cases he : f.ring.isEmpty with
      | true => rfl
      | false => exact absurd ⟨hsize, he⟩ hs
    rw [if_pos hsize, SlotRing.tryPop_of_empty dest hempty]
  · rw [if_neg hsize]

/-- The three things that a drain can be. -/
theorem drain_cases (hf : f.ring.Sound) (drainer : Drainer) (dest : List Int8) :
    (f.Serves dest.length ∧
      drain drainer dest f = .ok ⟨.proceed, f.ring.slotAt f.ring.tail⟩ (f.dequeue drainer)) ∨
    (¬ f.Serves dest.length ∧ f.stopping = true ∧
      drain drainer dest f = .ok ⟨.terminate, List.replicate dest.length 0⟩
        (f.note (.silent drainer .terminate dest.length))) ∨
    (¬ f.Serves dest.length ∧ f.stopping = false ∧
      drain drainer dest f = .ok ⟨.proceed, List.replicate dest.length 0⟩
        ((f.underrun dest.length).note (.silent drainer .proceed dest.length))) := by
  by_cases hs : f.Serves dest.length
  · exact .inl ⟨hs, drain_of_serves hf hs drainer⟩
  · right
    rw [drain_of_not_serves hs drainer, silence]
    cases hstop : f.stopping with
    | true => exact .inl ⟨hs, rfl, rfl⟩
    | false => exact .inr ⟨hs, rfl, rfl⟩

/-! ## Conservation -/

/-- Drains have answered the slots `sent`, in order, and nothing but silence between them. -/
inductive Answers : List Slot → List (Drainer × Delivery) → Prop where
  | nil : Answers [] []
  | slot {sent : List Slot} {given : List (Drainer × Delivery)} (drainer : Drainer) (slot : Slot) :
      Answers sent given → Answers (slot :: sent) ((drainer, ⟨.proceed, slot⟩) :: given)
  | silence {sent : List Slot} {given : List (Drainer × Delivery)} (drainer : Drainer)
      (status : Status) (size : Nat) :
      Answers sent given → Answers sent ((drainer, ⟨status, List.replicate size 0⟩) :: given)

theorem Answers.append {sent sent' : List Slot} {given given' : List (Drainer × Delivery)}
    (h : Answers sent given) (h' : Answers sent' given') :
    Answers (sent ++ sent') (given ++ given') := by
  induction h with
  | nil => exact h'
  | slot drainer slot _ ih => exact .slot drainer slot ih
  | silence drainer status size _ ih => exact .silence drainer status size ih

/-- The counters have counted the slots `pushed` and `popped`, and no slot that found no room. -/
structure Tallied (f g : Feed) (pushed popped : List Slot) : Prop where
  pushed_eq : g.stats.pushed = f.stats.pushed + pushed.length
  drained_eq : g.stats.drained = f.stats.drained + popped.length
  deferred_eq : g.stats.deferred = f.stats.deferred

/-- What journal and counters say of the slots `pushed` and `popped`. A stream that stops does not
flow again, and as long as it flows no drain is told of its end. -/
structure Noted (f g : Feed) (pushed popped : List Slot) : Prop
    extends Tallied f g pushed popped where
  queued_eq : g.queuedSlots = f.queuedSlots ++ pushed
  sent_eq : g.sentSlots = f.sentSlots ++ popped
  stopping_mono : g.stopping = false → f.stopping = false
  answers : ∃ given, g.deliveries = f.deliveries ++ given ∧ Answers popped given ∧
    (g.stopping = false → ∀ answer ∈ given, answer.2.status = .proceed)

theorem Tallied.trans {pushed popped pushed' popped' : List Slot}
    (hfg : Tallied f g pushed popped) (hgh : Tallied g h pushed' popped') :
    Tallied f h (pushed ++ pushed') (popped ++ popped') := by
  refine ⟨?_, ?_, hgh.deferred_eq.trans hfg.deferred_eq⟩
  · rw [hgh.pushed_eq, hfg.pushed_eq, List.length_append, Nat.add_assoc]
  · rw [hgh.drained_eq, hfg.drained_eq, List.length_append, Nat.add_assoc]

theorem noted_of_event (event : Event) (hjournal : g.journal = event :: f.journal)
    (hstop : g.stopping = f.stopping)
    (htally : Tallied f g event.queuedSlot?.toList event.sentSlot?.toList)
    (hanswers : Answers event.sentSlot?.toList event.delivery?.toList)
    (hproceed : f.stopping = false → ∀ answer ∈ event.delivery?, answer.2.status = .proceed) :
    Noted f g event.queuedSlot?.toList event.sentSlot?.toList := by
  have hg : g.journal = (f.note event).journal := hjournal
  refine ⟨htally, ?_, ?_, fun hflows => hstop ▸ hflows, event.delivery?.toList, ?_, hanswers,
    fun hflows answer hmem => hproceed (hstop ▸ hflows) answer (Option.mem_toList.mp hmem)⟩
  · rw [queuedSlots, hg]
    exact note_queuedSlots f event
  · rw [sentSlots, hg]
    exact note_sentSlots f event
  · rw [deliveries, hg]
    exact note_deliveries f event

/-- A feed became another while `pushed` were pushed and `popped` were popped. -/
structure Flow (f g : Feed) (pushed popped : List Slot) : Prop extends Noted f g pushed popped where
  sound : g.ring.Sound
  capacity_eq : g.ring.capacity = f.ring.capacity
  slotSize_eq : g.ring.slotSize = f.ring.slotSize
  length_eq : ∀ slot ∈ pushed, slot.length = f.ring.slotSize
  contents_eq : f.ring.contents ++ pushed = popped ++ g.ring.contents

theorem Flow.trans {pushed popped pushed' popped' : List Slot} (hfg : Flow f g pushed popped)
    (hgh : Flow g h pushed' popped') : Flow f h (pushed ++ pushed') (popped ++ popped') := by
  obtain ⟨given, hgiven, hanswers, hproceed⟩ := hfg.answers
  obtain ⟨given', hgiven', hanswers', hproceed'⟩ := hgh.answers
  refine ⟨⟨hfg.toTallied.trans hgh.toTallied, ?_, ?_, hfg.stopping_mono ∘ hgh.stopping_mono,
    given ++ given', ?_, hanswers.append hanswers', ?_⟩, hgh.sound,
    hgh.capacity_eq.trans hfg.capacity_eq, hgh.slotSize_eq.trans hfg.slotSize_eq, ?_, ?_⟩
  · rw [hgh.queued_eq, hfg.queued_eq, List.append_assoc]
  · rw [hgh.sent_eq, hfg.sent_eq, List.append_assoc]
  · rw [hgiven', hgiven, List.append_assoc]
  · intro hflows answer hanswer
    rcases List.mem_append.mp hanswer with hmem | hmem
    · exact hproceed (hgh.stopping_mono hflows) answer hmem
    · exact hproceed' hflows answer hmem
  · intro slot hslot
    rcases List.mem_append.mp hslot with hslot | hslot
    · exact hfg.length_eq slot hslot
    · exact (hgh.length_eq slot hslot).trans hfg.slotSize_eq
  · rw [← List.append_assoc, hfg.contents_eq, List.append_assoc, hgh.contents_eq, List.append_assoc]

/-- What is popped and what is left are as many as what was there and what was pushed. -/
theorem Flow.length_eq_add {pushed popped : List Slot} (hfg : Flow f g pushed popped) :
    popped.length + g.ring.len = f.ring.len + pushed.length := by
  have hlen := congrArg List.length hfg.contents_eq
  simp only [List.length_append, SlotRing.contents_length] at hlen
  omega

/-- Where the ring is left alone there is no flow. -/
theorem flow_of_noted (hf : f.ring.Sound) (hring : g.ring = f.ring) (hnoted : Noted f g [] []) :
    Flow f g [] [] := by
  refine ⟨hnoted, ?_, ?_, ?_, fun _ hnil => absurd hnil List.not_mem_nil, ?_⟩
  · rw [hring]
    exact hf
  · rw [hring]
  · rw [hring]
  · rw [hring, List.append_nil, List.nil_append]

theorem Flow.refl (hf : f.ring.Sound) : Flow f f [] [] :=
  flow_of_noted hf rfl ⟨⟨rfl, rfl, rfl⟩, (List.append_nil _).symm, (List.append_nil _).symm, id, [],
    (List.append_nil _).symm, .nil, fun _ _ hnil => absurd hnil List.not_mem_nil⟩

/-- Nothing flows when the stream is marked as stopping. -/
theorem Flow.withStopping {pushed popped : List Slot} (hfg : Flow f g pushed popped) :
    Flow f { g with stopping := true } pushed popped := by
  obtain ⟨given, hgiven, hanswers, _⟩ := hfg.answers
  exact ⟨⟨⟨hfg.pushed_eq, hfg.drained_eq, hfg.deferred_eq⟩, hfg.queued_eq, hfg.sent_eq, nofun,
    given, hgiven, hanswers, nofun⟩, hfg.sound, hfg.capacity_eq, hfg.slotSize_eq, hfg.length_eq,
    hfg.contents_eq⟩

theorem flow_report (hf : f.ring.Sound) (notice : Notice) : Flow f (f.report notice) [] [] :=
  flow_of_noted hf rfl (noted_of_event (.reported _) rfl rfl ⟨rfl, rfl, rfl⟩ .nil fun _ _ => nofun)

theorem flow_enqueue (hf : f.ring.Sound) (hroom : f.ring.hasRoom = true)
    (hslot : slot.length = f.ring.slotSize) : Flow f (f.enqueue slot) [slot] [] := by
  refine ⟨noted_of_event (.queued slot) rfl rfl ⟨rfl, rfl, rfl⟩ .nil fun _ _ => nofun,
    hf.enqueue hroom, rfl, rfl, ?_, ?_⟩
  · intro other hother
    rwa [List.mem_singleton.mp hother]
  · exact (SlotRing.contents_enqueue hf hroom hslot).symm

theorem flow_dequeue (hf : f.ring.Sound) (hempty : f.ring.isEmpty = false) (drainer : Drainer) :
    Flow f (f.dequeue drainer) [] [f.ring.slotAt f.ring.tail] := by
  refine ⟨noted_of_event (.sent drainer _) rfl rfl ⟨rfl, rfl, rfl⟩ (.slot drainer _ .nil) ?_,
    hf.dequeue hempty, rfl, rfl, fun _ hnil => absurd hnil List.not_mem_nil, ?_⟩
  · rintro _ _ ⟨rfl⟩
    rfl
  · rw [List.append_nil, SlotRing.contents_dequeue hf hempty]
    rfl

theorem flow_silent (hf : f.ring.Sound) (drainer : Drainer) {status : Status} (size : Nat)
    (hstatus : f.stopping = false → status = .proceed) :
    Flow f (f.note (.silent drainer status size)) [] [] := by
  refine flow_of_noted hf rfl (noted_of_event (.silent drainer status size) rfl rfl ⟨rfl, rfl, rfl⟩
    (.silence drainer status size .nil) ?_)
  rintro hflows _ ⟨rfl⟩
  exact hstatus hflows

theorem flow_underrun (hf : f.ring.Sound) (size : Nat) : Flow f (f.underrun size) [] [] :=
  flow_of_noted hf rfl (noted_of_event (.reported _) rfl rfl ⟨rfl, rfl, rfl⟩ .nil fun _ _ => nofun)

/-- A drain pops what it delivers, or nothing. -/
theorem drain_flow (hf : f.ring.Sound) (drainer : Drainer) (dest : List Int8) :
    ∃ delivery g popped, drain drainer dest f = .ok delivery g ∧ Flow f g [] popped ∧
      g.stopping = f.stopping := by
  rcases drain_cases hf drainer dest with ⟨hs, he⟩ | ⟨_, hstop, he⟩ | ⟨_, _, he⟩
  · exact ⟨_, _, _, he, flow_dequeue hf hs.2 drainer, rfl⟩
  · exact ⟨_, _, _, he, flow_silent hf drainer _ (by simp [hstop]), rfl⟩
  · have hunder := flow_underrun hf dest.length
    exact ⟨_, _, _, he, hunder.trans (flow_silent hunder.sound drainer _ fun _ => rfl), rfl⟩

/-- A drain answers the oldest slot or silence, and what it answers is noted. -/
theorem drain_noted (hf : f.ring.Sound) (drainer : Drainer) (dest : List Int8) :
    ∃ delivery g, drain drainer dest f = .ok delivery g ∧
      g.deliveries = f.deliveries ++ [(drainer, delivery)] ∧
      (f.ring.contents.head? = some delivery.bytes ∨
        delivery.bytes = List.replicate dest.length 0) := by
  rcases drain_cases hf drainer dest with ⟨hs, he⟩ | ⟨_, _, he⟩ | ⟨_, _, he⟩
  · refine ⟨_, _, he, note_deliveries _ _, .inl ?_⟩
    rw [SlotRing.contents_dequeue hf hs.2]
    rfl
  · exact ⟨_, _, he, note_deliveries _ _, .inr rfl⟩
  · refine ⟨_, _, he, ?_, .inr rfl⟩
    have hunder : (f.underrun dest.length).deliveries = f.deliveries := report_deliveries _ _
    rw [note_deliveries, hunder]
    rfl

/-! ## What others do -/

/-- What drains and reports make of a feed. -/
inductive Drained (f : Feed) : Feed → Prop where
  | refl : Drained f f
  | drain {g h : Feed} {drainer : Drainer} {dest : List Int8} {delivery : Delivery} :
      Drained f g → Feed.drain drainer dest g = .ok delivery h → Drained f h
  | report {g : Feed} (notice : Notice) : Drained f g → Drained f (g.report notice)

theorem Drained.trans (hfg : Drained f g) (hgh : Drained g h) : Drained f h := by
  induction hgh with
  | refl => exact hfg
  | drain _ he ih => exact .drain ih he
  | report notice _ ih => exact .report notice ih

/-- Drains and reports push nothing and leave the stopping flag. -/
theorem Drained.flow (hd : Drained f g) (hf : f.ring.Sound) :
    ∃ popped, Flow f g [] popped ∧ g.stopping = f.stopping := by
  induction hd with
  | refl => exact ⟨[], .refl hf, rfl⟩
  | @drain g h drainer dest delivery _ he ih =>
      obtain ⟨popped, hflow, hstop⟩ := ih
      obtain ⟨_, _, more, he', hnext, hstop'⟩ := drain_flow hflow.sound drainer dest
      rw [he] at he'
      cases he'
      exact ⟨popped ++ more, hflow.trans hnext, hstop'.trans hstop⟩
  | report notice _ ih =>
      obtain ⟨popped, hflow, hstop⟩ := ih
      refine ⟨popped ++ [], hflow.trans (flow_report hflow.sound notice), hstop⟩

theorem Drained.sound (hd : Drained f g) (hf : f.ring.Sound) : g.ring.Sound := by
  obtain ⟨_, hflow, _⟩ := hd.flow hf
  exact hflow.sound

/-- Drains make room and take none. -/
theorem Drained.hasRoom (hd : Drained f g) (hf : f.ring.Sound) (hroom : f.ring.hasRoom = true) :
    g.ring.hasRoom = true := by
  obtain ⟨popped, hflow, _⟩ := hd.flow hf
  have hlen := hflow.length_eq_add
  simp only [SlotRing.hasRoom, decide_eq_true_eq] at hroom ⊢
  rw [hflow.capacity_eq]
  simp only [List.length_nil] at hlen
  omega

end IqTransmit.Feed
