import IqTransmit.Engine.Steered
import IqTransmit.Proofs.Sink.Integrity
import IqTransmit.Proofs.Sink.Progress
import IqTransmit.Proofs.Sink.Waits

/-!
When a call of `workAll` has to wait. Each of its calls of `work` looks for room, and each but the
last pushes a slot. So the call goes through without a wait if there is a free slot for every call
of `work` that it needs; and as long as nothing is drained it does not go through otherwise, even
where the last call would only have begun a slot.
-/

namespace IqTransmit

variable {E α : Type}

namespace Feed

variable {f g h : Feed} {pushed popped pushed' popped' : List Slot}

/-- Where nothing was drained on the way to the end, nothing was on the way to the middle. -/
theorem Flow.undrained (hfg : Flow f g pushed popped) (hgh : Flow g h pushed' popped')
    (hsame : h.deliveries = f.deliveries) : g.deliveries = f.deliveries := by
  obtain ⟨given, hgiven, _⟩ := hfg.answers
  obtain ⟨given', hgiven', _⟩ := hgh.answers
  rw [hgiven', hgiven, List.append_assoc] at hsame
  have hnone := List.append_right_eq_self.mp hsame
  rw [hgiven, (List.append_eq_nil_iff.mp hnone).1, List.append_nil]

/-- If nothing was drained, the ring holds what it held and what was pushed. -/
theorem Flow.len_of_undrained (hfg : Flow f g pushed popped)
    (hsame : g.deliveries = f.deliveries) : g.ring.len = f.ring.len + pushed.length := by
  obtain ⟨given, hgiven, hanswers, _⟩ := hfg.answers
  rw [hsame] at hgiven
  obtain rfl : given = [] := List.append_right_eq_self.mp hgiven.symm
  have hlen := hfg.length_eq_add
  cases hanswers with
  | nil =>
      rw [List.length_nil, Nat.zero_add] at hlen
      exact hlen

end Feed

namespace TransmitSink

variable {s t : TransmitSink E} {taken : List Sample}

/-- The slots pushed and the bytes left pending, counted in samples. -/
theorem Streamed.pushed_eq_div (h : Streamed s taken t) (hs : s.Invariant) :
    ∃ pushed popped, s.feed.Flow t.feed pushed popped ∧
      pushed.length = (s.fillOffset / 2 + taken.length) / (s.config.slotSize / 2) ∧
      t.fillOffset = 2 * ((s.fillOffset / 2 + taken.length) % (s.config.slotSize / 2)) := by
  obtain ⟨pushed, popped, hflow, hbytes⟩ := h.flow
  refine ⟨pushed, popped, hflow, ?_⟩
  have hslots : ∀ slot ∈ pushed, slot.length = s.config.slotSize := fun slot hslot =>
    (hflow.length_eq slot hslot).trans hs.slotSize_eq
  have hlt := h.invariant.fillOffset_lt
  rw [hflow.slotSize_eq, hs.slotSize_eq] at hlt
  have hlen := congrArg List.length hbytes
  rw [List.length_append, List.length_append, length_flatten_of_length hslots,
    h.invariant.toSound.pending_length, hs.toSound.pending_length, Cs8.bytesOf_length] at hlen
  obtain ⟨half, hhalf⟩ := hs.slotSize_even
  obtain ⟨before, hbefore⟩ := hs.fillOffset_even
  obtain ⟨after, hafter⟩ := h.invariant.fillOffset_even
  rw [hs.slotSize_eq] at hhalf
  rw [hhalf] at hlt hlen ⊢
  rw [hafter] at hlt hlen ⊢
  rw [hbefore] at hlen ⊢
  rw [Nat.mul_div_cancel_left _ Nat.two_pos, Nat.mul_div_cancel_left _ Nat.two_pos]
  have hsum : before + taken.length = after + half * pushed.length := by
    rw [Nat.mul_left_comm, Nat.mul_comm _ half] at hlen
    omega
  have hless : after < half := by omega
  rw [hsum]
  constructor
  · rw [Nat.add_mul_div_left _ _ (Nat.zero_lt_of_lt hless), Nat.div_eq_of_lt hless, Nat.zero_add]
  · rw [Nat.add_mul_mod_self_left, Nat.mod_eq_of_lt hless]

end TransmitSink

open TransmitSink (Moved Reachable streamed_refl callsNeeded_pos)

namespace Call

variable [TransferEngine E] {p q r : Progress E} {input rest : List Sample} {counts : List Nat}
variable {done : α → Progress E → Prop} {halted : Halt → Progress E → Prop}

/-! ## Calls that make no pause -/

omit [TransferEngine E] in
theorem KeepsPauses.ends {call : Call E α} (hk : KeepsPauses call) (h : Ends call p done halted) :
    Ends call p (fun a q => done a q ∧ q.pauses = p.pauses) halted := by
  simp only [Ends] at h ⊢
  cases he : call p with
  | ok a q =>
      rw [he] at h
      exact ⟨h, hk p a q he⟩
  | error halt q =>
      rw [he] at h
      exact h

theorem keepsPauses_gap : KeepsPauses (E := E) gap := by
  intro p a q he
  simp only [gap] at he
  cases hgaps : p.gaps with
  | nil =>
      rw [hgaps] at he
      cases he
      rfl
  | cons moves rest =>
      rw [hgaps] at he
      exact keepsPauses_moveAll moves { p with gaps := rest } a q he

theorem pushComplete_pauses (count : Nat) (hp : p.sink.feed.ring.Sound)
    (hroom : p.sink.feed.ring.hasRoom = true)
    (hscratch : p.sink.scratch.length = p.sink.feed.ring.slotSize) :
    Ends (pushComplete count) p (fun _ q => q.pauses = p.pauses) never := by
  refine (keepsPauses_gap.ends (gap_ends hp)).seq_never ?_
  intro _ q hq
  obtain ⟨_, hflow, _⟩ := hq.1.drained.flow hp
  have hlen : q.sink.scratch.length = q.sink.feed.ring.slotSize := by
    rw [hq.1.scratch_eq, hflow.slotSize_eq, hscratch]
  exact Ends.step (pushScratch_of_room hflow.sound (hq.1.drained.hasRoom hp hroom) hlen) hq.2

theorem takeBatch_pauses (input : List Sample) (hp : p.sink.Sound)
    (hroom : p.sink.feed.ring.hasRoom = true) :
    Ends (takeBatch input) p (fun _ q => q.pauses = p.pauses) never := by
  by_cases hlt : input.length < p.sink.free
  · exact .of_ok (takeBatch_of_short hp hlt) rfl
  · have hle := Nat.le_of_not_lt hlt
    have hlen : (input.take p.sink.free).length = p.sink.free := List.length_take_of_le hle
    have hscratch := (TransmitSink.fill_scratch_length hp hlen.le).trans hp.scratch_length
    simp only [Ends, takeBatch_of_long hp hle]
    exact pushComplete_pauses (p := { p with sink := p.sink.fill (input.take p.sink.free) }) _
      hp.ring hroom hscratch

/-- A call of `work` that finds room at once makes no pause. -/
theorem work_of_room (input : List Sample) (hp : p.sink.Sound)
    (hroom : p.sink.feed.ring.hasRoom = true) :
    Ends (work input) p (fun _ q => q.pauses = p.pauses) never := by
  rw [work_eq]
  refine (keepsPauses_gap.ends (gap_ends hp.ring)).seq_never ?_
  intro _ q hq
  have hstill := hq.1.drained.hasRoom hp.ring hroom
  have hyes : (hasRoom : Call E Bool) q = .ok true q := by rw [hasRoom, hstill]
  refine Ends.step (waitUntil_of_yes hyes) ?_
  refine (takeBatch_pauses input (hq.1.sound hp) hstill).imp ?_ fun _ _ hnever => hnever
  exact fun _ _ hsame => hsame.trans hq.2

theorem Offers.pos (ho : Offers input p counts rest q) (hp : p.sink.Sound) :
    ∀ count ∈ counts, 0 < count := by
  induction ho with
  | none => exact nofun
  | offer ho hrest he ih =>
      intro count hmem
      have hq := ho.rounds.sound hp
      rcases List.mem_append.mp hmem with hmem | hlast
      · exact ih count hmem
      · rw [List.mem_singleton.mp hlast]
        exact ((work_ends _ hq).ok he).count_pos hq hrest

theorem Offers.sum_eq (ho : Offers input p counts rest q) (hp : p.sink.Sound) :
    counts.sum + rest.length = input.length := by
  induction ho with
  | none => rw [List.sum_nil, Nat.zero_add]
  | offer ho _ he ih =>
      have hle := ((work_ends _ (ho.rounds.sound hp)).ok he).count_le
      rw [List.sum_append, List.sum_singleton, List.length_drop]
      omega

/-! ## Room for all calls -/

/-- What is queued is no more than what was queued at first and what the calls have pushed. -/
theorem Offers.hasRoom (ho : Offers input p counts rest q) (h : p.sink.Invariant)
    (hrest : rest ≠ [])
    (henough : p.sink.callsNeeded input ≤ p.sink.config.bufferCount - p.sink.queued) :
    q.sink.feed.ring.hasRoom = true := by
  obtain ⟨used, _, hstreamed⟩ := (streamed_refl h).rounds ho.rounds
  obtain ⟨pushed, popped, hflow, _⟩ := hstreamed.flow
  have hcalls := ho.callsNeeded_eq h
  have hsome := callsNeeded_pos hstreamed.invariant hrest
  have hpushed := ho.pushed_eq h.toSound hrest
  rw [hflow.pushed_eq] at hpushed
  have hlen := hflow.length_eq_add
  have hcapacity := hflow.capacity_eq.trans h.capacity_eq
  simp only [SlotRing.hasRoom, decide_eq_true_eq]
  rw [TransmitSink.queued] at henough
  omega

theorem Offers.pauses_eq (ho : Offers input p counts rest q) (h : p.sink.Invariant)
    (henough : p.sink.callsNeeded input ≤ p.sink.config.bufferCount - p.sink.queued) :
    q.pauses = p.pauses := by
  induction ho with
  | none => rfl
  | @offer counts rest q r count ho hrest he ih =>
      have hroom := ho.hasRoom h hrest henough
      exact ((work_of_room rest (ho.rounds.sound h.toSound) hroom).ok he).trans ih

/-- With a free slot for each call that is needed, none of them has to wait. -/
theorem workAll_of_room (h : p.sink.Invariant)
    (henough : p.sink.callsNeeded input ≤ p.sink.config.bufferCount - p.sink.queued) :
    ∃ q, workAll input p = .ok () q ∧ q.pauses = p.pauses := by
  have hends := workAll_offers input h.toSound
  cases he : workAll input p with
  | ok _ q =>
      obtain ⟨counts, hoffers⟩ := hends.ok he
      exact ⟨q, rfl, hoffers.pauses_eq h henough⟩
  | error halt q =>
      obtain ⟨counts, rest, r, hrest, hoffers, hlast⟩ := hends.error he
      have hroom := hoffers.hasRoom h hrest henough
      exact ((work_of_room rest (hoffers.rounds.sound h.toSound) hroom).error hlast).elim

/-! ## Calls during which nothing is drained -/

/-- Nothing is drained during a call, however it ends. -/
def Undrained (call : Call E α) (p : Progress E) : Prop :=
  Ends call p (fun _ q => q.sink.feed.deliveries = p.sink.feed.deliveries)
    (fun _ q => q.sink.feed.deliveries = p.sink.feed.deliveries)

/-- As long as nothing is drained and samples are left, the ring holds a slot more for each call. -/
theorem Offers.len_of_undrained {t : TransmitSink E} (ho : Offers input p counts rest q)
    (h : p.sink.Invariant) (hrest : rest ≠ []) (hm : Moved q.sink t)
    (hsame : t.feed.deliveries = p.sink.feed.deliveries) :
    t.feed.ring.len = p.sink.queued + counts.length := by
  obtain ⟨used, _, hstreamed⟩ := (streamed_refl h).rounds ho.rounds
  obtain ⟨pushed, popped, hflow, _⟩ := (hstreamed.moved hm).flow
  obtain ⟨_, hquiet, _⟩ := hm.drained.flow hstreamed.invariant.ring
  have hpushed := hquiet.pushed_eq.trans (ho.pushed_eq h.toSound hrest)
  have hlen := hflow.len_of_undrained hsame
  rw [hflow.pushed_eq] at hpushed
  rw [TransmitSink.queued]
  omega

/-- A call that goes through although nothing is drained finds a free slot for each of its calls of
`work`, also for the last one. -/
theorem enough_of_undrained (h : p.sink.Invariant) (he : workAll input p = .ok () q)
    (hsame : q.sink.feed.deliveries = p.sink.feed.deliveries) :
    p.sink.callsNeeded input ≤ p.sink.config.bufferCount - p.sink.queued := by
  obtain ⟨counts, hoffers⟩ := (workAll_offers input h.toSound).ok he
  have hcalls := hoffers.callsNeeded_eq h
  generalize hnone : ([] : List Sample) = left at hoffers hcalls
  cases hoffers with
  | none =>
      subst hnone
      exact Nat.zero_le _
  | @offer counts rest r _ count ho hrest hlast =>
      have hr := ho.rounds.invariant h
      obtain ⟨t, hm, hroom, hworked⟩ := (work_roomy rest hr.toSound).ok hlast
      obtain ⟨_, _, hstreamed⟩ := (streamed_refl h).rounds ho.rounds
      obtain ⟨_, _, hflow, _⟩ := (hstreamed.moved hm).flow
      obtain ⟨_, _, _, hflow', _⟩ := hworked.flow (hm.sound hr.toSound)
      have hlen := ho.len_of_undrained h hrest hm (hflow.undrained hflow' hsame)
      have hcapacity := hflow.capacity_eq.trans h.capacity_eq
      simp only [SlotRing.hasRoom, decide_eq_true_eq] at hroom
      rw [← hnone, TransmitSink.callsNeeded, List.isEmpty_nil, if_pos rfl, List.length_append,
        List.length_singleton] at hcalls
      omega

/-- A call that is kept from its samples although nothing is drained has used the free slots up. -/
theorem Offers.length_of_undrained {halt : Halt} (ho : Offers input p counts rest r)
    (h : p.sink.Invariant) (hrest : rest ≠ []) (hlast : work rest r = .error halt q)
    (hsame : q.sink.feed.deliveries = p.sink.feed.deliveries) :
    counts.length = p.sink.config.bufferCount - p.sink.queued := by
  have hr := ho.rounds.invariant h
  have hblocked := (work_ends rest hr.toSound).error hlast
  have hq := hblocked.moved.invariant hr
  obtain ⟨_, _, hstreamed⟩ := (streamed_refl h).rounds ho.rounds
  have hlen := ho.len_of_undrained h hrest hblocked.moved hsame
  have hfull := (hq.ring.len_eq_of_full hblocked.full).trans hq.capacity_eq
  rw [hblocked.moved.config_eq, hstreamed.config_eq] at hfull
  omega

end Call

namespace TransmitSink

variable [TransferEngine E] {s : TransmitSink E}

open Call (Offers Undrained attempt work workAll)

/-- A call of `workAll` that returns has made exactly the calls of `work` that its input needs, each
for a sample at least; it has pushed the slots that the samples complete, and the others are
pending. If there is a free slot for each of these calls, it returns and makes no pause. As long as
nothing is drained, it does not return otherwise: it is kept from the rest of its samples after as
many calls as there were free slots. -/
theorem workAll_returns_iff_slot_for_each_call (hr : Reachable s) (input : List Sample)
    (pauses : List Pause) (gaps : List (List Move)) :
    (∀ q, workAll input ⟨s, pauses, gaps⟩ = .ok () q →
      (∃ counts, Offers input ⟨s, pauses, gaps⟩ counts [] q ∧
        counts.length = s.callsNeeded input ∧ (∀ count ∈ counts, 0 < count) ∧
        counts.sum = input.length) ∧
      ∃ pushed popped, s.feed.Flow q.sink.feed pushed popped ∧
        pushed.length = (s.fillOffset / 2 + input.length) / (s.config.slotSize / 2) ∧
        q.sink.fillOffset = 2 * ((s.fillOffset / 2 + input.length) % (s.config.slotSize / 2))) ∧
    (s.callsNeeded input ≤ s.config.bufferCount - s.queued →
      ∃ q, workAll input ⟨s, pauses, gaps⟩ = .ok () q ∧ q.pauses = pauses) ∧
    (Undrained (workAll input) ⟨s, pauses, gaps⟩ →
      ((∃ q, workAll input ⟨s, pauses, gaps⟩ = .ok () q) ↔
        s.callsNeeded input ≤ s.config.bufferCount - s.queued) ∧
      ∀ halt q, workAll input ⟨s, pauses, gaps⟩ = .error halt q →
        ∃ counts rest r, Offers input ⟨s, pauses, gaps⟩ counts rest r ∧ rest ≠ [] ∧
          work rest r = .error halt q ∧
          counts.length = s.config.bufferCount - s.queued) := by
  have h := hr.invariant
  have hends := Call.workAll_offers (p := ⟨s, pauses, gaps⟩) input h.toSound
  refine ⟨?_, Call.workAll_of_room (p := ⟨s, pauses, gaps⟩) h, fun hquiet => ⟨⟨?_, ?_⟩, ?_⟩⟩
  · intro q he
    obtain ⟨counts, hoffers⟩ := hends.ok he
    have hstreamed := (streamed_refl h).workAll (p := ⟨s, pauses, gaps⟩) he
    refine ⟨⟨counts, hoffers, hoffers.callsNeeded_eq h, hoffers.pos h.toSound, ?_⟩, ?_⟩
    · exact hoffers.sum_eq h.toSound
    · exact hstreamed.pushed_eq_div h
  · rintro ⟨q, he⟩
    exact Call.enough_of_undrained h he (hquiet.ok he)
  · intro henough
    obtain ⟨q, he, _⟩ := Call.workAll_of_room (p := ⟨s, pauses, gaps⟩) h henough
    exact ⟨q, he⟩
  · intro halt q he
    obtain ⟨counts, rest, r, hrest, hoffers, hlast⟩ := hends.error he
    exact ⟨counts, rest, r, hoffers, hrest, hlast,
      hoffers.length_of_undrained h hrest hlast (hquiet.error he)⟩

/-- One sample is pending in a slot of two, and the ring has room for one slot. A second sample goes
through, and so does an empty batch; of two the first goes through and completes the slot, but the
other has to wait, although it would only begin the next one. -/
theorem workAll_waits_to_begin_slot :
    ∃ (s : TransmitSink Steered) (q r : Progress Steered) (counts : List Nat) (rest : List Sample),
      Reachable s ∧ s.fillOffset = 2 ∧ s.queued + 1 = s.config.bufferCount ∧
        workAll [⟨⟨0x3f800000⟩, ⟨0⟩⟩] ⟨s, [{}], []⟩ = .ok () q ∧ q.pauses = [{}] ∧
        workAll [⟨⟨0x3f800000⟩, ⟨0⟩⟩, ⟨⟨0⟩, ⟨0x3f800000⟩⟩] ⟨s, [{}], []⟩ = .error .waiting r ∧
        counts.length = 1 ∧ counts.sum + rest.length = 2 ∧ rest ≠ [] ∧
        ∃ t, workAll [] ⟨s, [{}], []⟩ = .ok () t ∧ t.pauses = [{}] := by
  have hmade := Reachable.make (rfl : make { bufferCount := 2, slotSize := 4 }
    (none : Option Steered) = .ok _)
  have hfilled := Reachable.workAll (p := ⟨_, [], []⟩) hmade
    (rfl : attempt (workAll [⟨⟨0x3f800000⟩, ⟨0⟩⟩, ⟨⟨0⟩, ⟨0⟩⟩, ⟨⟨0⟩, ⟨0x3f800000⟩⟩]) ⟨_, [], []⟩ =
      .ok _ _)
  obtain ⟨s, r, hr, hoffset, hqueued, hone, hwaits, hquiet⟩ : ∃ (s : TransmitSink Steered)
      (r : Progress Steered), Reachable s ∧ s.fillOffset = 2 ∧
        s.queued + 1 = s.config.bufferCount ∧ s.callsNeeded [⟨⟨0x3f800000⟩, ⟨0⟩⟩] = 1 ∧
        workAll [⟨⟨0x3f800000⟩, ⟨0⟩⟩, ⟨⟨0⟩, ⟨0x3f800000⟩⟩] ⟨s, [{}], []⟩ = .error .waiting r ∧
        r.sink.feed.deliveries = s.feed.deliveries :=
    ⟨_, _, hfilled, by decide +kernel, by decide +kernel, by decide +kernel, rfl, by decide +kernel⟩
  have hroom : s.config.bufferCount - s.queued = 1 := by omega
  obtain ⟨_, hgoes, _⟩ := workAll_returns_iff_slot_for_each_call hr [⟨⟨0x3f800000⟩, ⟨0⟩⟩] [{}] []
  obtain ⟨_, hnone, _⟩ := workAll_returns_iff_slot_for_each_call hr [] [{}] []
  obtain ⟨_, _, hkept⟩ := workAll_returns_iff_slot_for_each_call hr
    [⟨⟨0x3f800000⟩, ⟨0⟩⟩, ⟨⟨0⟩, ⟨0x3f800000⟩⟩] [{}] []
  obtain ⟨q, hq, hpauses⟩ := hgoes (hone.trans hroom.symm).le
  obtain ⟨counts, rest, _, hoffers, hrest, _, hcounts⟩ :=
    (hkept (.of_error hwaits hquiet)).2 .waiting r hwaits
  exact ⟨s, q, r, counts, rest, hr, hoffset, hqueued, hq, hpauses, hwaits, hcounts.trans hroom,
    hoffers.sum_eq hr.invariant.toSound, hrest, hnone (Nat.zero_le _)⟩

end TransmitSink

end IqTransmit
