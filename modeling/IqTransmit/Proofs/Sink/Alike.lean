import IqTransmit.Proofs.Sink.Reachable

/-!
Sinks that cannot be told apart by what is done with them from now on. They hold the same slots and
the same pending bytes and agree in all settings; where the slots lie in their stores, what the rest
of their scratch slots holds, and what they have counted and noted before may differ.
-/

namespace IqTransmit

variable {E α : Type}

instance : Add Stats :=
  ⟨fun earlier later => ⟨earlier.pushed + later.pushed, earlier.drained + later.drained,
    earlier.underruns + later.underruns, earlier.deferred + later.deferred⟩⟩

namespace Event

/-- An entry as it reads where some had been counted before. -/
def shift (earlier : Stats) : Event → Event
  | .reported (.streamingStopped drained underruns deferred) =>
      .reported (.streamingStopped (earlier.drained + drained) (earlier.underruns + underruns)
        (earlier.deferred + deferred))
  | event => event

@[simp] theorem shift_delivery? (earlier : Stats) (event : Event) :
    (event.shift earlier).delivery? = event.delivery? := by
  cases event with
  | reported notice => cases notice <;> rfl
  | queued | sent | silent => rfl

@[simp] theorem shift_queuedSlot? (earlier : Stats) (event : Event) :
    (event.shift earlier).queuedSlot? = event.queuedSlot? := by
  cases event with
  | reported notice => cases notice <;> rfl
  | queued | sent | silent => rfl

@[simp] theorem shift_sentSlot? (earlier : Stats) (event : Event) :
    (event.shift earlier).sentSlot? = event.sentSlot? := by
  cases event with
  | reported notice => cases notice <;> rfl
  | queued | sent | silent => rfl

end Event

/-- From where two feeds are compared: the counters and the journal of the one, and the journal of
the other, which has counted nothing yet. -/
structure Baseline where
  stats : Stats
  journal : List Event
  fresh : List Event

namespace Feed

variable {base : Baseline} {f f' g g' : Feed} {pushed popped : List Slot}

/-- Two feeds that hold the same slots and have noted the same since the baseline. What the second
has sent was queued in it before. -/
structure Alike (base : Baseline) (f g : Feed) : Prop where
  sound : f.ring.Sound
  fresh_sound : g.ring.Sound
  capacity_eq : f.ring.capacity = g.ring.capacity
  slotSize_eq : f.ring.slotSize = g.ring.slotSize
  contents_eq : f.ring.contents = g.ring.contents
  stopping_eq : f.stopping = g.stopping
  stats_eq : f.stats = base.stats + g.stats
  since : ∃ since, f.journal = since.map (Event.shift base.stats) ++ base.journal ∧
    g.journal = since ++ base.fresh
  inOrder : (g.sentSlots ++ g.ring.contents).Sublist g.queuedSlots

/-- Slots flow alike on both sides, and one entry more is noted. -/
theorem Alike.flow (h : Alike base f g) (event : Event) (hf : Flow f f' pushed popped)
    (hg : Flow g g' pushed popped) (hstop : f'.stopping = g'.stopping)
    (hstats : f'.stats = base.stats + g'.stats)
    (hnote : f'.journal = event.shift base.stats :: f.journal)
    (hnote' : g'.journal = event :: g.journal) : Alike base f' g' := by
  obtain ⟨since, hsince, hsince'⟩ := h.since
  refine ⟨hf.sound, hg.sound, ?_, ?_, ?_, hstop, hstats, ⟨event :: since, ?_, ?_⟩, ?_⟩
  · rw [hf.capacity_eq, hg.capacity_eq, h.capacity_eq]
  · rw [hf.slotSize_eq, hg.slotSize_eq, h.slotSize_eq]
  · have hkept := hf.contents_eq
    rw [h.contents_eq, hg.contents_eq] at hkept
    exact (List.append_cancel_left hkept).symm
  · simp [hnote, hsince]
  · simp [hnote', hsince']
  · rw [hg.sent_eq, List.append_assoc, ← hg.contents_eq, hg.queued_eq, ← List.append_assoc]
    exact h.inOrder.append (List.Sublist.refl pushed)

theorem Alike.hasRoom_eq (h : Alike base f g) : f.ring.hasRoom = g.ring.hasRoom := by
  have hlen := congrArg List.length h.contents_eq
  simp only [SlotRing.contents_length] at hlen
  simp only [SlotRing.hasRoom, hlen, h.capacity_eq]

theorem Alike.isEmpty_eq (h : Alike base f g) : f.ring.isEmpty = g.ring.isEmpty := by
  have hlen := congrArg List.length h.contents_eq
  simp only [SlotRing.contents_length] at hlen
  simp only [SlotRing.isEmpty, hlen]

theorem Alike.report (h : Alike base f g) {notice notice' : Notice}
    (hnotice : .reported notice = (Event.reported notice').shift base.stats) :
    Alike base (f.report notice) (g.report notice') := by
  apply h.flow _ (flow_report h.sound notice) (flow_report h.fresh_sound notice') h.stopping_eq
    h.stats_eq
  · rw [← hnotice]
    rfl
  · rfl

theorem Alike.enqueue (h : Alike base f g) (hroom : f.ring.hasRoom = true) {slot : Slot}
    (hslot : slot.length = f.ring.slotSize) : Alike base (f.enqueue slot) (g.enqueue slot) := by
  have hflow := flow_enqueue h.fresh_sound (h.hasRoom_eq ▸ hroom) (hslot.trans h.slotSize_eq)
  have hstats : (f.enqueue slot).stats = base.stats + (g.enqueue slot).stats := by
    simp only [Feed.enqueue, Feed.note, h.stats_eq]
    rfl
  exact h.flow (.queued slot) (flow_enqueue h.sound hroom hslot) hflow h.stopping_eq hstats
    rfl rfl

theorem Alike.dequeue (h : Alike base f g) (hempty : f.ring.isEmpty = false) (drainer : Drainer) :
    f.ring.slotAt f.ring.tail = g.ring.slotAt g.ring.tail ∧
      Alike base (f.dequeue drainer) (g.dequeue drainer) := by
  have hempty' : g.ring.isEmpty = false := h.isEmpty_eq ▸ hempty
  have hcontents := h.contents_eq
  rw [SlotRing.contents_dequeue h.sound hempty, SlotRing.contents_dequeue h.fresh_sound hempty']
    at hcontents
  have holdest : f.ring.slotAt f.ring.tail = g.ring.slotAt g.ring.tail :=
    (List.cons.inj hcontents).1
  have hflow := flow_dequeue h.sound hempty drainer
  have hnote : (f.dequeue drainer).journal =
      (Event.sent drainer (g.ring.slotAt g.ring.tail)).shift base.stats :: f.journal := by
    rw [← holdest]
    rfl
  have hstats : (f.dequeue drainer).stats = base.stats + (g.dequeue drainer).stats := by
    simp only [Feed.dequeue, Feed.note, h.stats_eq]
    rfl
  rw [holdest] at hflow
  exact ⟨holdest, h.flow _ hflow (flow_dequeue h.fresh_sound hempty' drainer) h.stopping_eq hstats
    hnote rfl⟩

theorem Alike.silent (h : Alike base f g) (drainer : Drainer) {status : Status} (size : Nat)
    (hstatus : f.stopping = false → status = .proceed) :
    Alike base (f.note (.silent drainer status size)) (g.note (.silent drainer status size)) := by
  have hstatus' : g.stopping = false → status = .proceed := h.stopping_eq ▸ hstatus
  exact h.flow (.silent drainer status size) (flow_silent h.sound drainer size hstatus)
    (flow_silent h.fresh_sound drainer size hstatus') h.stopping_eq h.stats_eq rfl rfl

theorem Alike.underrun (h : Alike base f g) (size : Nat) :
    Alike base (f.underrun size) (g.underrun size) := by
  have hnote : (f.underrun size).journal =
      (Event.reported (if size = g.ring.slotSize then .underrun
        else .transferMismatch size g.ring.slotSize)).shift base.stats :: f.journal := by
    simp only [Feed.underrun, Feed.report, Feed.note, h.slotSize_eq]
    split <;> rfl
  have hstats : (f.underrun size).stats = base.stats + (g.underrun size).stats := by
    simp only [Feed.underrun, Feed.report, Feed.note, h.stats_eq]
    rfl
  exact h.flow _ (flow_underrun h.sound size) (flow_underrun h.fresh_sound size) h.stopping_eq
    hstats hnote rfl

/-- A drain of either answers the same, and leaves both alike. -/
theorem Alike.drain (h : Alike base f g) (drainer : Drainer) (dest : List Int8) :
    ∃ delivery f' g', Feed.drain drainer dest f = .ok delivery f' ∧
      Feed.drain drainer dest g = .ok delivery g' ∧ Alike base f' g' := by
  have hserves : f.Serves dest.length ↔ g.Serves dest.length := by
    simp only [Serves, h.slotSize_eq, h.isEmpty_eq]
  by_cases hs : f.Serves dest.length
  · obtain ⟨holdest, hnext⟩ := h.dequeue hs.2 drainer
    have hdrain := drain_of_serves h.fresh_sound (hserves.mp hs) drainer
    rw [← holdest] at hdrain
    exact ⟨_, _, _, drain_of_serves h.sound hs drainer, hdrain, hnext⟩
  · rw [drain_of_not_serves hs drainer, drain_of_not_serves (mt hserves.mpr hs) drainer]
    simp only [silence, ← h.stopping_eq]
    cases hstop : f.stopping with
    | true =>
        exact ⟨_, _, _, rfl, rfl, h.silent drainer dest.length (by simp [hstop])⟩
    | false =>
        exact ⟨_, _, _, rfl, rfl, (h.underrun dest.length).silent drainer _ fun _ => rfl⟩

theorem Alike.withStopping (h : Alike base f g) (stopping : Bool) :
    Alike base { f with stopping } { g with stopping } :=
  { h with stopping_eq := rfl }

/-- Dropping what is queued leaves both empty. -/
theorem Alike.clear (h : Alike base f g) :
    Alike base { f with ring := f.ring.clear } { g with ring := g.ring.clear } := by
  refine { h with sound := h.sound.clear, fresh_sound := h.fresh_sound.clear,
                  contents_eq := rfl, inOrder := ?_ }
  apply List.Sublist.trans _ h.inOrder
  exact (List.nil_sublist g.ring.contents).append_left g.sentSlots

/-- An action of an engine pulls the same from either. -/
theorem Alike.runAction (h : Alike base f g) (action : Action E α) :
    ∃ result engine f' g', action.run Feed.pull f = .ok (result, engine) f' ∧
      action.run Feed.pull g = .ok (result, engine) g' ∧ Alike base f' g' := by
  induction action generalizing f g with
  | finish result engine => exact ⟨result, engine, f, g, rfl, rfl, h⟩
  | pull dest resume ih =>
      obtain ⟨delivery, f', g', hf, hg, hnext⟩ := h.drain .engine dest
      obtain ⟨result, engine, f'', g'', hrun, hrun', hlast⟩ := ih (.delivered delivery) hnext
      have hpull : Feed.pull dest f = .ok (.delivered delivery) f' := by rw [Feed.pull, hf]
      have hpull' : Feed.pull dest g = .ok (.delivered delivery) g' := by rw [Feed.pull, hg]
      refine ⟨result, engine, f'', g'', ?_, ?_, hlast⟩
      · simp only [Action.run, hpull, hrun]
      · simp only [Action.run, hpull', hrun']

end Feed

namespace TransmitSink

variable {base : Baseline} {known : Nat} {s t : TransmitSink E}

/-- Two sinks that agree in everything but what they had before the baseline. Of their scratch slots
they are known to agree in the first `known` bytes, the pending ones among them. -/
structure Alike (base : Baseline) (known : Nat) (s t : TransmitSink E) : Prop where
  feed : s.feed.Alike base t.feed
  engine_eq : s.engine = t.engine
  converter_eq : s.converter = t.converter
  fillOffset_eq : s.fillOffset = t.fillOffset
  phase_eq : s.phase = t.phase
  config_eq : s.config = t.config
  scratch_length_eq : s.scratch.length = t.scratch.length
  scratch_eq : s.scratch.take known = t.scratch.take known
  fillOffset_le : s.fillOffset ≤ known

theorem Alike.pending_eq (h : Alike base known s t) : s.pending = t.pending := by
  have hpending := congrArg (List.take s.fillOffset) h.scratch_eq
  rw [List.take_take, List.take_take, Nat.min_eq_left h.fillOffset_le] at hpending
  rw [pending, pending, ← h.fillOffset_eq]
  exact hpending

theorem Alike.queue_eq (h : Alike base known s t) : s.queue = t.queue := h.feed.contents_eq

theorem Alike.queued_eq (h : Alike base known s t) : s.queued = t.queued := by
  have hlen := congrArg List.length h.feed.contents_eq
  rw [SlotRing.contents_length, SlotRing.contents_length] at hlen
  exact hlen

theorem Alike.sound (h : Alike base known s t) (hs : s.Sound) : t.Sound := by
  have hsize := h.feed.slotSize_eq
  refine ⟨h.feed.fresh_sound, ?_, ?_, ?_, ?_⟩
  · rw [← h.scratch_length_eq, hs.scratch_length, hsize]
  · rw [← hsize]
    exact hs.slotSize_even
  · rw [← h.fillOffset_eq]
    exact hs.fillOffset_even
  · rw [← h.fillOffset_eq, ← hsize]
    exact hs.fillOffset_lt

theorem Alike.withFeed (h : Alike base known s t) {f g : Feed} (hfeed : f.Alike base g) :
    Alike base known { s with feed := f } { t with feed := g } :=
  { h with feed := hfeed }

theorem Alike.report (h : Alike base known s t) {notice notice' : Notice}
    (hnotice : .reported notice = (Event.reported notice').shift base.stats) :
    Alike base known (s.report notice) (t.report notice') :=
  h.withFeed (h.feed.report hnotice)

theorem Alike.withPhase (h : Alike base known s t) (phase : Phase) :
    Alike base known { s with phase } { t with phase } :=
  { h with phase_eq := rfl }

theorem Alike.drain (h : Alike base known s t) (drainer : Drainer) (dest : List Int8) :
    ∃ delivery s' t', s.drain drainer dest = .ok delivery s' ∧
      t.drain drainer dest = .ok delivery t' ∧ Alike base known s' t' := by
  obtain ⟨delivery, f, g, hf, hg, hfeed⟩ := h.feed.drain drainer dest
  refine ⟨delivery, { s with feed := f }, { t with feed := g }, ?_, ?_, h.withFeed hfeed⟩
  · rw [TransmitSink.drain, hf]
  · rw [TransmitSink.drain, hg]

theorem Alike.bind (h : Alike base known s t) (engine : E) :
    (s.bind engine).1 = (t.bind engine).1 ∧
      Alike base known (s.bind engine).2 (t.bind engine).2 := by
  simp only [TransmitSink.bind, ← h.phase_eq, ← h.engine_eq]
  split
  · exact ⟨rfl, h⟩
  · exact ⟨rfl, h⟩
  · exact ⟨rfl, { h with engine_eq := rfl, phase_eq := rfl }⟩
  · exact ⟨rfl, { h with engine_eq := rfl, phase_eq := rfl }⟩

theorem Alike.withStrategy (h : Alike base known s t) (strategy : Cs8.Strategy) :
    Alike base known (s.withStrategy strategy) (t.withStrategy strategy) := by
  have hconverted : Alike base known { s with converter := .ofStrategy strategy }
      { t with converter := .ofStrategy strategy } := { h with converter_eq := rfl }
  simp only [TransmitSink.withStrategy, Cs8.Converter.noticesOf]
  split
  · exact hconverted
  · exact hconverted.report rfl

/-! ### What the fill side does to a scratch slot -/

theorem Alike.free_eq (h : Alike base known s t) : s.free = t.free := by
  rw [free, free, h.scratch_length_eq, h.fillOffset_eq]

theorem Alike.flushSlot_eq (h : Alike base known s t) : s.flushSlot = t.flushSlot := by
  rw [flushSlot, flushSlot, h.pending_eq, h.scratch_length_eq, h.fillOffset_eq]

/-- A batch goes behind pending bytes that agree, so that no more needs to be known than these. -/
theorem Alike.fill (h : Alike base known s t) (hs : s.Sound) {batch : List Sample}
    (hb : batch.length ≤ s.free) :
    Alike base (s.fill batch).fillOffset (s.fill batch) (t.fill batch) := by
  have ht := h.sound hs
  have hb' : batch.length ≤ t.free := h.free_eq ▸ hb
  have hoffset : (s.fill batch).fillOffset = (t.fill batch).fillOffset := by
    simp only [TransmitSink.fill, h.fillOffset_eq]
  have hlength : (s.fill batch).scratch.length = (t.fill batch).scratch.length := by
    rw [fill_scratch_length hs hb, fill_scratch_length ht hb', h.scratch_length_eq]
  have hpending : (s.fill batch).pending = (t.fill batch).pending := by
    rw [fill_pending hs hb, fill_pending ht hb', h.pending_eq]
  refine ⟨h.feed, h.engine_eq, h.converter_eq, hoffset, h.phase_eq, h.config_eq, hlength, ?_,
    le_rfl⟩
  rw [pending, pending, ← hoffset] at hpending
  exact hpending

/-- The padded slots agree in all of their bytes, and so do silent ones. -/
theorem Alike.padded (h : Alike base known s t) (hs : s.Sound) :
    Alike base s.flushSlot.length { s with scratch := s.flushSlot }
      { t with scratch := t.flushSlot } := by
  refine { h with scratch_length_eq := ?_, scratch_eq := ?_, fillOffset_le := ?_ }
  · rw [h.flushSlot_eq]
  · rw [h.flushSlot_eq]
  · rw [hs.flushSlot_length]
    exact hs.fillOffset_lt.le

theorem Alike.silenced (h : Alike base known s t) (other : Nat) :
    Alike base other
      { s with fillOffset := 0, scratch := List.replicate s.scratch.length 0 }
      { t with fillOffset := 0, scratch := List.replicate t.scratch.length 0 } := by
  rw [← h.scratch_length_eq]
  exact { h with
    fillOffset_eq := rfl
    scratch_length_eq := rfl
    scratch_eq := rfl
    fillOffset_le := Nat.zero_le other }

/-- Scratch slots known in full are queued alike. -/
theorem Alike.queueScratch (h : Alike base known s t) (hroom : s.feed.ring.hasRoom = true)
    (hlen : s.scratch.length = s.feed.ring.slotSize) (hknown : s.scratch.length ≤ known) :
    Alike base known { s with feed := s.feed.enqueue s.scratch }
      { t with feed := t.feed.enqueue t.scratch } := by
  have hscratch := h.scratch_eq
  rw [List.take_of_length_le hknown, List.take_of_length_le (h.scratch_length_eq ▸ hknown)]
    at hscratch
  have hfeed : (s.feed.enqueue s.scratch).Alike base (t.feed.enqueue t.scratch) := by
    rw [← hscratch]
    exact h.feed.enqueue hroom hlen
  exact h.withFeed hfeed

/-! ### A start -/

theorem Alike.feedAtStart (h : Alike base known s t) :
    s.feedAtStart.Alike base t.feedAtStart := by
  simp only [TransmitSink.feedAtStart, h.phase_eq]
  split
  · exact h.feed.withStopping false
  · exact h.feed.clear.withStopping false

theorem Alike.started (h : Alike base known s t) (engine : E) (phase : Phase) :
    Alike base known
      { s with engine := some engine, feed := s.feedAtStart, fillOffset := 0, phase }
      { t with engine := some engine, feed := t.feedAtStart, fillOffset := 0, phase } :=
  ⟨h.feedAtStart, rfl, h.converter_eq, rfl, rfl, h.config_eq, h.scratch_length_eq, h.scratch_eq,
    Nat.zero_le known⟩

variable [TransferEngine E]

theorem Alike.start (h : Alike base known s t) :
    s.start.1 = t.start.1 ∧ Alike base known s.start.2 t.start.2 := by
  simp only [TransmitSink.start, ← h.engine_eq, ← h.phase_eq, ← h.config_eq, ← h.converter_eq]
  cases s.engine with
  | none => exact ⟨rfl, h⟩
  | some engine =>
      simp only
      by_cases hphase : s.phase = .streaming
      · rw [if_pos hphase, if_pos hphase]
        exact ⟨rfl, h.report rfl⟩
      · rw [if_neg hphase, if_neg hphase]
        by_cases hsize : TransferEngine.transferSize engine ≠ s.config.slotSize
        · rw [if_pos hsize, if_pos hsize]
          exact ⟨rfl, h⟩
        · rw [if_neg hsize, if_neg hsize]
          cases TransferEngine.start engine with
          | mk result after =>
              cases result with
              | error problem =>
                  refine ⟨rfl, Alike.report ?_ rfl⟩
                  exact { h.started after s.phase with converter_eq := rfl, config_eq := rfl }
              | ok _ =>
                  refine ⟨rfl, Alike.report ?_ rfl⟩
                  exact { h.started after .streaming with converter_eq := rfl, config_eq := rfl }

end TransmitSink

end IqTransmit
