import IqTransmit.Engine.Steered
import IqTransmit.Proofs.Sink.Phases

/-!
What the counters of a sink count. A slot that was pushed is drained, or still queued, unless a
start of a stopped sink has dropped it.
-/

namespace IqTransmit

variable {E : Type}

/-- Whether an entry is a drain that was answered with silence and told to go on. -/
def Event.isUnderrun : Event → Bool
  | silent _ .proceed _ => true
  | silent _ .terminate _ | reported _ | queued _ | sent .. => false

namespace Feed

variable {f g : Feed} {lost : Nat}

/-- The counters agree with the journal, and with the ring but for the slots that were `lost`. -/
structure Balanced (lost : Nat) (f : Feed) : Prop where
  pushed_eq : f.stats.pushed = f.queuedSlots.length
  drained_eq : f.stats.drained = f.sentSlots.length
  underruns_eq : f.stats.underruns = f.journal.countP Event.isUnderrun
  deferred_eq : f.stats.deferred = 0
  conserved : f.stats.pushed = f.stats.drained + f.ring.len + lost

/-- One entry more, counted as what it is. -/
theorem Balanced.noted (h : Balanced lost f) (event : Event)
    (hjournal : g.journal = event :: f.journal)
    (hpushed : g.stats.pushed = f.stats.pushed + event.queuedSlot?.toList.length)
    (hdrained : g.stats.drained = f.stats.drained + event.sentSlot?.toList.length)
    (hunderruns : g.stats.underruns = f.stats.underruns + if event.isUnderrun then 1 else 0)
    (hdeferred : g.stats.deferred = f.stats.deferred)
    (hlen : event.queuedSlot?.toList.length + f.ring.len =
      event.sentSlot?.toList.length + g.ring.len) : Balanced lost g := by
  have hg : g.journal = (f.note event).journal := hjournal
  refine ⟨?_, ?_, ?_, hdeferred.trans h.deferred_eq, ?_⟩
  · have hqueued : g.queuedSlots = f.queuedSlots ++ event.queuedSlot?.toList := by
      rw [queuedSlots, hg]
      exact note_queuedSlots f event
    rw [hpushed, hqueued, List.length_append, h.pushed_eq]
  · have hsent : g.sentSlots = f.sentSlots ++ event.sentSlot?.toList := by
      rw [sentSlots, hg]
      exact note_sentSlots f event
    rw [hdrained, hsent, List.length_append, h.drained_eq]
  · rw [hunderruns, hjournal, List.countP_cons, h.underruns_eq]
  · have hbefore := h.conserved
    omega

theorem Balanced.report (h : Balanced lost f) (notice : Notice) :
    Balanced lost (f.report notice) :=
  h.noted (.reported notice) rfl rfl rfl rfl rfl rfl

theorem Balanced.enqueue (h : Balanced lost f) (slot : Slot) :
    Balanced lost (f.enqueue slot) := by
  refine h.noted (g := f.enqueue slot) (.queued slot) rfl rfl rfl rfl rfl ?_
  change 1 + f.ring.len = 0 + (f.ring.len + 1)
  omega

/-- Each of the three things that a drain can be is counted as such. -/
theorem Balanced.drain (h : Balanced lost f) (hf : f.ring.Sound) {drainer : Drainer}
    {dest : List Int8} {delivery : Delivery} (he : Feed.drain drainer dest f = .ok delivery g) :
    Balanced lost g := by
  rcases drain_cases hf drainer dest with ⟨hs, hd⟩ | ⟨_, _, hd⟩ | ⟨_, _, hd⟩
  · rw [he] at hd
    cases hd
    have hlen : f.ring.len ≠ 0 := by simpa [SlotRing.isEmpty] using hs.2
    refine h.noted (g := f.dequeue drainer) (.sent drainer _) rfl rfl rfl rfl rfl ?_
    change 0 + f.ring.len = 1 + (f.ring.len - 1)
    omega
  · rw [he] at hd
    cases hd
    exact h.noted (.silent drainer .terminate dest.length) rfl rfl rfl rfl rfl rfl
  · rw [he] at hd
    cases hd
    -- the report of an underrun is an entry of its own
    have hreported := h.report (if dest.length = f.ring.slotSize then .underrun
      else .transferMismatch dest.length f.ring.slotSize)
    exact hreported.noted (.silent drainer .proceed dest.length) rfl rfl rfl rfl rfl rfl

end Feed

theorem steady_balanced (becomes : E → E → Prop) (lost : Nat) :
    Steady becomes fun s => s.feed.Balanced lost :=
  steady_of_feed (fun h hf he => h.drain hf he) (fun notice h => h.report notice)
    fun slot h _ _ _ => h.enqueue slot

theorem steady_drained (becomes : E → E → Prop) (count : Nat) :
    Steady becomes fun s => count ≤ s.feed.stats.drained := by
  apply steady_of_feed (P := fun f => count ≤ f.stats.drained)
  · intro f g drainer dest delivery hle hf he
    obtain ⟨_, _, _, he', hflow, _⟩ := Feed.drain_flow hf drainer dest
    rw [he] at he'
    cases he'
    rw [hflow.drained_eq]
    exact Nat.le_add_right_of_le hle
  · exact fun _ hle => hle
  · exact fun _ hle _ _ _ => hle

namespace TransmitSink

variable {s : TransmitSink E} {lost : Nat}

theorem balanced_of_make {config : SinkConfig} {engine : Option E}
    (h : make config engine = .ok s) : s.feed.Balanced 0 := by
  have hnew (ring : SlotRing) (hlen : ring.len = 0) : Feed.Balanced 0 { ring } :=
    ⟨rfl, rfl, rfl, rfl, by simp [hlen]⟩
  simp only [make] at h
  split at h
  · cases h
  · split at h
    · cases h
    · next ring hring =>
        obtain ⟨_, _, _, rfl⟩ := SlotRing.make_eq_ok_iff.mp hring
        split at h
        · cases h
          exact hnew _ rfl
        · cases h
          exact (hnew _ rfl).report _

/-- A start of a sink that is not idle drops what is queued. -/
theorem feedAtStart_balanced (h : s.feed.Balanced lost) :
    s.feedAtStart.Balanced (lost + if s.phase = .idle then 0 else s.queued) := by
  have hbefore := h.conserved
  refine ⟨h.pushed_eq, h.drained_eq, h.underruns_eq, h.deferred_eq, ?_⟩
  by_cases hidle : s.phase = .idle
  · simp only [feedAtStart, if_pos hidle]
    exact hbefore
  · simp only [feedAtStart, if_neg hidle]
    change s.feed.stats.pushed = s.feed.stats.drained + 0 + (lost + s.feed.ring.len)
    omega

end TransmitSink

variable [TransferEngine E]

namespace SinkStep

variable {step : SinkStep E} {lost : Nat}

/-- The slots that a step drops: those still queued at a start that is neither the first nor made
while the sink streams, and whose engine has transfers of the slot size. -/
def dropped (step : SinkStep E) : Nat :=
  match step.operation, step.before.engine with
  | .start, some engine =>
      if step.before.phase ≠ .idle ∧ step.before.phase ≠ .streaming ∧
          TransferEngine.transferSize engine = step.before.config.slotSize then
        step.before.queued
      else 0
  | _, _ => 0

theorem dropped_of_ne_start (h : step.operation ≠ .start) : step.dropped = 0 := by
  simp only [dropped]
  split
  · next he _ => exact absurd he h
  · rfl

theorem balanced_of_start (hstart : step.operation = .start) (h : step.before.feed.Balanced lost) :
    step.after.feed.Balanced (lost + step.dropped) := by
  have hkept := TransmitSink.feedAtStart_balanced h
  have hends := step.before.start_ends
  rw [after_of_start hstart]
  simp only [dropped, hstart]
  generalize step.before.start.2 = t at hends ⊢
  -- only a start that gets as far as the engine has reached the ring
  cases hends with
  | refused hrefused =>
      cases hengine : step.before.engine with
      | none => exact h
      | some engine =>
          simp only [(hrefused engine hengine).2, and_false, if_false]
          exact h
  | already hstreams =>
      cases step.before.engine with
      | none => exact h.report _
      | some engine =>
          simp only [hstreams, ne_eq, not_true_eq_false, false_and, and_false, if_false]
          exact h.report _
  | rejected hstreams hengine hsize _ =>
      simp only [hengine, hstreams, hsize, ne_eq, not_false_eq_true, and_true, ite_not]
      exact hkept.report _
  | begun hstreams hengine hsize _ =>
      simp only [hengine, hstreams, hsize, ne_eq, not_false_eq_true, and_true, ite_not]
      exact hkept.report _

/-- Whatever a step does, the counters stay true, with what it drops lost. -/
theorem balanced (hs : step.before.Sound) (h : step.before.feed.Balanced lost) :
    step.after.feed.Balanced (lost + step.dropped) := by
  by_cases hstart : step.operation = .start
  · exact balanced_of_start hstart h
  · rw [dropped_of_ne_start hstart]
    apply step.keeps_feed (steady_balanced _ lost) hs h
    · exact fun he => absurd he hstart
    · exact fun _ f hf => ⟨hf.pushed_eq, hf.drained_eq, hf.underruns_eq, hf.deferred_eq,
        hf.conserved⟩

/-- No step takes back that a slot was drained. -/
theorem drained_le (hs : step.before.Sound) :
    step.before.feed.stats.drained ≤ step.after.feed.stats.drained := by
  apply step.keeps_feed (P := fun f => step.before.feed.stats.drained ≤ f.stats.drained)
    (steady_drained _ _) hs le_rfl
  · exact fun _ => le_rfl
  · exact fun _ _ hle => hle

/-- If nothing is queued in an empty ring, it stays empty. -/
theorem queued_eq_zero (hs : step.before.Sound) (h : step.before.feed.Balanced lost)
    (hempty : step.before.queued = 0)
    (hsame : step.after.feed.queuedSlots = step.before.feed.queuedSlots) :
    step.after.queued = 0 := by
  have hafter := step.balanced hs h
  have hdrained := step.drained_le hs
  have hcount := hafter.conserved
  rw [hafter.pushed_eq, hsame, ← h.pushed_eq, h.conserved] at hcount
  simp only [TransmitSink.queued] at hempty ⊢
  omega

/-- An empty ring of a stopped sink stays empty if nothing is queued in it, and a stop that leaves
the ring empty empties it. -/
theorem queued_eq_zero_of_stopped (hs : step.before.Invariant) (h : step.before.feed.Balanced lost)
    (hreturns : step.reply.returns = true)
    (hempty : step.before.phase = .stopped → step.before.queued = 0)
    (hstop : step.StopsStream → step.after.queued = 0)
    (hfill : step.before.phase = .stopped →
      step.after.feed.queuedSlots = step.before.feed.queuedSlots)
    (hphase : step.after.phase = .stopped) : step.after.queued = 0 := by
  have htransition := step.transition hs hreturns
  rw [hphase] at htransition
  generalize hbefore : step.before.phase = before at htransition
  generalize hoperation : step.operation = operation at htransition
  cases htransition with
  | keep _ _ => exact queued_eq_zero hs.toSound h (hempty hbefore) (hfill hbefore)
  | stop pauses gaps now => exact hstop ⟨hbefore, pauses, gaps, now, hoperation⟩

theorem dropped_eq_zero (hs : step.before.Invariant)
    (hempty : step.before.phase = .stopped → step.before.queued = 0) : step.dropped = 0 := by
  simp only [dropped]
  split
  · split
    · next hphase =>
        cases hbefore : step.before.phase with
        | idle => exact absurd hbefore hphase.1
        | streaming => exact absurd hbefore hphase.2.1
        | stopping => exact absurd hbefore hs.settled
        | stopped => exact hempty hbefore
    · rfl
  · rfl

end SinkStep

/-! ### Runs -/

namespace Operation

variable {s : TransmitSink E} {lost : Nat}

/-- Over a run, what is lost is what its steps drop. -/
theorem run_balanced (hr : s.Reachable) (h : s.feed.Balanced lost)
    (operations : List (Operation E)) :
    (run s operations).2.feed.Balanced
      (lost + ((steps s operations).map SinkStep.dropped).sum) := by
  induction operations generalizing s lost with
  | nil => exact h
  | cons operation rest ih =>
      have hnext := (⟨s, operation⟩ : SinkStep E).balanced hr.invariant.toSound h
      cases hreturns : (⟨s, operation⟩ : SinkStep E).reply.returns with
      | true =>
          rw [run_of_returns hreturns, steps_of_returns hreturns, List.map_cons, List.sum_cons,
            ← Nat.add_assoc]
          exact ih (perform_reachable hr operation hreturns) hnext
      | false =>
          rw [run_of_halted hreturns, steps_of_halted hreturns, List.map_singleton,
            List.sum_singleton]
          exact hnext

/-- Where every stop leaves the ring empty, and nothing is queued while the sink is stopped, no step
drops a slot. -/
theorem dropped_eq_zero (hr : s.Reachable) (h : s.feed.Balanced lost) (hphase : s.phase ≠ .stopped)
    {operations : List (Operation E)}
    (hstop : ∀ step ∈ steps s operations, step.StopsStream → step.reply.returns = true →
      step.after.queued = 0)
    (hfill : ∀ step ∈ steps s operations, step.before.phase = .stopped →
      step.after.feed.queuedSlots = step.before.feed.queuedSlots) :
    ∀ step ∈ steps s operations, step.dropped = 0 := by
  intro step hmem
  obtain ⟨earlier, later, hsplit⟩ := List.append_of_mem hmem
  have hbefore := holds_before_step (P := fun _ s => s.Reachable ∧
    (∃ lost, s.feed.Balanced lost) ∧ (s.phase = .stopped → s.queued = 0)) hsplit []
    ⟨hr, ⟨lost, h⟩, fun he => absurd he hphase⟩ ?_
  · exact SinkStep.dropped_eq_zero hbefore.1.invariant hbefore.2.2
  · rintro _ step hmem ⟨hr, ⟨lost, h⟩, hempty⟩ hreturns
    exact ⟨perform_reachable hr step.operation hreturns, ⟨_, step.balanced hr.invariant.toSound h⟩,
      step.queued_eq_zero_of_stopped hr.invariant h hreturns hempty
        (fun he => hstop step hmem he hreturns) (hfill step hmem)⟩

end Operation

namespace TransmitSink

variable {s t : TransmitSink E}

/-- Over any run of a new sink, what its counters count: the slots that drains took, the drains that
were answered with silence and told to go on, and the slots queued. Of these, all that were not taken
are in the ring, but for those that the starts of the run have dropped. There are none of these if
every stop leaves the ring empty and nothing is queued while the sink is stopped. -/
theorem slots_conserved {config : SinkConfig} {engine : Option E}
    (hmake : make config engine = .ok s) (operations : List (Operation E))
    {replies : List (Reply E)} (hrun : Operation.run s operations = (replies, t)) :
    t.feed.stats.drained = t.feed.sentSlots.length ∧
      t.feed.stats.underruns = t.feed.journal.countP Event.isUnderrun ∧
      t.feed.stats.deferred = 0 ∧
      t.feed.stats.pushed = t.feed.stats.drained + t.queued +
        ((Operation.steps s operations).map SinkStep.dropped).sum ∧
      ((∀ step ∈ Operation.steps s operations, step.StopsStream → step.reply.returns = true →
          step.after.queued = 0) →
        (∀ step ∈ Operation.steps s operations, step.before.phase = .stopped →
          step.after.feed.queuedSlots = step.before.feed.queuedSlots) →
        ((Operation.steps s operations).map SinkStep.dropped).sum = 0 ∧
          t.feed.stats.pushed = t.feed.stats.drained + t.queued) := by
  have hr := Reachable.make hmake
  have hbalanced := Operation.run_balanced hr (balanced_of_make hmake) operations
  rw [hrun, Nat.zero_add] at hbalanced
  refine ⟨hbalanced.drained_eq, hbalanced.underruns_eq, hbalanced.deferred_eq,
    hbalanced.conserved, fun hstop hfill => ?_⟩
  have hidle : s.phase ≠ .stopped := by
    rw [phase_of_make hmake]
    decide
  have hnone : ((Operation.steps s operations).map SinkStep.dropped).sum = 0 := by
    have hall := Operation.dropped_eq_zero hr (balanced_of_make hmake) hidle hstop hfill
    rw [List.map_eq_replicate_iff.mpr hall, List.sum_replicate_nat, Nat.mul_zero]
  refine ⟨hnone, hbalanced.conserved.trans ?_⟩
  rw [hnone]
  rfl

/-- A stop to which the engine keeps up. -/
def stopInTime : List (Operation Steered) :=
  [.start, .work [⟨⟨0x3f800000⟩, ⟨0⟩⟩] [] [], .stop (List.replicate 8 { moves := [.engine] }) []]

/-- A stop that comes to its limit at a full ring, a start after it, and a drain. -/
def restartWithoutRoom : List (Operation Steered) :=
  [.start, .work (List.replicate 2 ⟨⟨0x3f800000⟩, ⟨0⟩⟩) [] [], .stop [{ elapsed := ⟨1000⟩ }] [],
    .start, .drain .other [1, 2, 3, 4]]

/-- Six slots of an orderly session are pushed and drained. The slot that a stop has left in the
ring is dropped by the next start. -/
theorem slots_conserved_in_two_runs :
    (∃ s : TransmitSink Steered,
      make { bufferCount := 2, slotSize := 4 } (some { transferSize := 4, batch := 1 }) = .ok s ∧
        (Operation.run s stopInTime).2.feed.stats.drained = 6 ∧
        (Operation.run s stopInTime).2.feed.stats.pushed = 6 + 0) ∧
    ∃ s : TransmitSink Steered,
      make { bufferCount := 1, slotSize := 4, stopTimeout := some ⟨1000⟩ }
          (some { transferSize := 4 }) = .ok s ∧
        (Operation.run s restartWithoutRoom).2.feed.stats.drained = 0 ∧
        (Operation.run s restartWithoutRoom).2.feed.stats.pushed = 0 + 0 + 1 := by
  constructor
  · obtain ⟨s, hmake, hdrained, hempty, hqueued, hrunning⟩ : ∃ s : TransmitSink Steered,
        make { bufferCount := 2, slotSize := 4 } (some { transferSize := 4, batch := 1 }) = .ok s ∧
          (Operation.run s stopInTime).2.feed.stats.drained = 6 ∧
          (Operation.run s stopInTime).2.queued = 0 ∧
          (∀ step ∈ Operation.steps s stopInTime, step.after.queued = 0) ∧
          ∀ step ∈ Operation.steps s stopInTime, step.before.phase ≠ .stopped :=
      ⟨_, rfl, by decide +kernel, by decide +kernel, by decide +kernel, by decide +kernel⟩
    obtain ⟨_, _, _, _, hall⟩ := slots_conserved hmake stopInTime (Prod.mk.eta).symm
    obtain ⟨_, hpushed⟩ := hall (fun step hmem _ _ => hqueued step hmem)
      fun step hmem he => absurd he (hrunning step hmem)
    rw [hdrained, hempty] at hpushed
    exact ⟨s, hmake, hdrained, hpushed⟩
  · obtain ⟨s, hmake, hdrained, hempty, hdropped⟩ : ∃ s : TransmitSink Steered,
        make { bufferCount := 1, slotSize := 4, stopTimeout := some ⟨1000⟩ }
            (some { transferSize := 4 }) = .ok s ∧
          (Operation.run s restartWithoutRoom).2.feed.stats.drained = 0 ∧
          (Operation.run s restartWithoutRoom).2.queued = 0 ∧
          ((Operation.steps s restartWithoutRoom).map SinkStep.dropped).sum = 1 :=
      ⟨_, rfl, by decide +kernel, by decide +kernel, by decide +kernel⟩
    obtain ⟨_, _, _, hpushed, _⟩ := slots_conserved hmake restartWithoutRoom (Prod.mk.eta).symm
    rw [hdrained, hempty, hdropped] at hpushed
    exact ⟨s, hmake, hdrained, hpushed⟩

end TransmitSink

end IqTransmit
