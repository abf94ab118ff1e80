import IqTransmit.Proofs.Sink.Drains
import Mathlib.Algebra.Order.Floor.Div

/-!
How far `workAll` gets before it has to wait. Its calls of `work` take a slot's worth of samples
each, the first one less what is pending. All of them look for room, the last one also if it
completes no slot; so where a full ring keeps a call from its samples, the slots that were free are
fewer than the calls that were to come.
-/

namespace IqTransmit

variable {E : Type}

namespace TransmitSink

/-- The calls of `work` that an input needs: none for an empty one, and else one for each slot that
it touches together with what is pending. -/
def callsNeeded (s : TransmitSink E) (input : List Sample) : Nat :=
  if input.isEmpty then 0 else (s.fillOffset / 2 + input.length) ⌈/⌉ (s.config.slotSize / 2)

theorem callsNeeded_of_ne_nil (s : TransmitSink E) {input : List Sample} (h : input ≠ []) :
    s.callsNeeded input = (s.fillOffset / 2 + input.length) ⌈/⌉ (s.config.slotSize / 2) := by
  rw [callsNeeded, if_neg (by simpa using h)]

theorem callsNeeded_pos {s : TransmitSink E} (h : s.Invariant) {input : List Sample}
    (hinput : input ≠ []) : 0 < s.callsNeeded input := by
  have hsize := h.ring.slotSize_pos
  have heven := h.slotSize_even
  have hlen := List.length_pos_iff.mpr hinput
  rw [h.slotSize_eq] at hsize heven
  rw [s.callsNeeded_of_ne_nil hinput, ← Nat.not_le, ceilDiv_le_iff_le_mul (by omega)]
  omega

/-- Where nothing is pending, a call is needed for each slot's worth of samples begun. -/
theorem callsNeeded_of_emptied {s : TransmitSink E} (h : s.fillOffset = 0) (input : List Sample) :
    s.callsNeeded input = input.length ⌈/⌉ (s.config.slotSize / 2) := by
  cases input with
  | nil => exact (zero_ceilDiv _).symm
  | cons x rest => rw [s.callsNeeded_of_ne_nil (List.cons_ne_nil _ _), h, Nat.zero_div, Nat.zero_add]

theorem Moved.callsNeeded_eq {s t : TransmitSink E} (hm : Moved s t) (input : List Sample) :
    t.callsNeeded input = s.callsNeeded input := by
  rw [callsNeeded, hm.fillOffset_eq, hm.config_eq, callsNeeded]

/-- A call of `work` leaves one call less to come. -/
theorem Worked.callsNeeded_eq {s t : TransmitSink E} {input : List Sample} {count : Nat}
    (hw : Worked input s count t) (h : s.Invariant) (hinput : input ≠ []) :
    t.callsNeeded (input.drop count) + 1 = s.callsNeeded input := by
  have hsome := callsNeeded_pos h hinput
  have hfree := h.toSound.free_eq
  have hpos := h.toSound.free_pos
  have heven := h.slotSize_even
  have hoffset := h.fillOffset_even
  rw [h.scratch_length, h.slotSize_eq] at hfree
  rw [h.slotSize_eq] at heven
  have hhalf : s.fillOffset / 2 + s.free = s.config.slotSize / 2 := by omega
  rw [s.callsNeeded_of_ne_nil hinput] at hsome ⊢
  cases hw with
  | partly _ short =>
      have hone : (s.fillOffset / 2 + input.length) ⌈/⌉ (s.config.slotSize / 2) ≤ 1 :=
        (ceilDiv_le_iff_le_mul (by omega)).mpr (by omega)
      rw [List.drop_length]
      exact Nat.le_antisymm hsome hone
  | @completing _ u moved _ long after =>
      have hsplit : s.fillOffset / 2 + input.length + s.config.slotSize / 2 - 1 =
          (input.drop s.free).length + s.config.slotSize / 2 - 1 + s.config.slotSize / 2 := by
        rw [List.length_drop]
        omega
      have hconfig : u.config = s.config := after.config_eq.trans moved.config_eq
      rw [callsNeeded_of_emptied rfl, Nat.ceilDiv_eq_add_pred_div, Nat.ceilDiv_eq_add_pred_div,
        hsplit, Nat.add_div_right _ (by omega)]
      simp only [pushed, hconfig]

/-- A call of `work` that leaves samples of its input has pushed a slot. -/
theorem Worked.pushed_of_left {s t : TransmitSink E} {input : List Sample} {count : Nat}
    (hw : Worked input s count t) (h : s.Sound) (hleft : input.drop count ≠ []) :
    t.feed.stats.pushed = s.feed.stats.pushed + 1 := by
  cases hw with
  | partly _ _ => exact absurd List.drop_length hleft
  | @completing t u moved _ _ after =>
      obtain ⟨_, hflow, _⟩ := moved.drained.flow h.ring
      obtain ⟨_, hflow', _⟩ := after.drained.flow hflow.sound
      exact congrArg (· + 1) (hflow'.pushed_eq.trans hflow.pushed_eq)

end TransmitSink

open TransmitSink (Moved Invariant callsNeeded_pos)

namespace Call

variable [TransferEngine E] {o p q : Progress E} {input rest : List Sample} {halt : Halt}
variable {counts : List Nat}

/-! ## Counting -/

/-- The calls made and those to come are those that were needed at first. -/
theorem Offers.callsNeeded_eq (ho : Offers input p counts rest q) (h : p.sink.Invariant) :
    counts.length + q.sink.callsNeeded rest = p.sink.callsNeeded input := by
  induction ho with
  | none => exact Nat.zero_add _
  | offer ho hrest he ih =>
      have hq := ho.rounds.invariant h
      have hworked := (work_ends _ hq.toSound).ok he
      have hless := hworked.callsNeeded_eq hq hrest
      rw [List.length_append, List.length_singleton]
      omega

/-- As long as samples are left, each call has pushed a slot. -/
theorem Offers.pushed_eq (ho : Offers input p counts rest q) (hp : p.sink.Sound)
    (hrest : rest ≠ []) :
    q.sink.feed.stats.pushed = p.sink.feed.stats.pushed + counts.length := by
  induction ho with
  | none => rfl
  | offer ho hleft he ih =>
      have hq := ho.rounds.sound hp
      have hpush := ((work_ends _ hq).ok he).pushed_of_left hq hrest
      rw [hpush, ih hleft, List.length_append, List.length_singleton, Nat.add_assoc]

/-- Where `workAll` is kept from the rest of an input, the slots that were free and those that were
drained meanwhile are fewer than the calls that it needs. -/
theorem callsNeeded_of_halted {given : List (Drainer × Delivery)} (h : p.sink.Invariant)
    (he : workAll input p = .error halt q) (hgiven : p.sink.feed.Fulfilled q.sink.feed given) :
    p.sink.config.bufferCount - p.sink.queued + given.length < p.sink.callsNeeded input := by
  obtain ⟨counts, rest, r, hrest, hoffers, hlast⟩ := (workAll_offers input h.toSound).error he
  have hr := hoffers.rounds.invariant h
  obtain ⟨hmoved, hfull, _⟩ := (work_ends rest hr.toSound).error hlast
  have hq := hmoved.invariant hr
  obtain ⟨_, hflow, _⟩ := hmoved.drained.flow hr.ring
  have hcalls := hoffers.callsNeeded_eq h
  have hsome := callsNeeded_pos hr hrest
  have hpushed := hoffers.pushed_eq h.toSound hrest
  have hsame := hflow.pushed_eq
  have hlen := hgiven.len_eq
  obtain ⟨_, hgrown⟩ := hgiven.flow
  have hcapacity : q.sink.feed.ring.len = p.sink.config.bufferCount := by
    rw [hq.ring.len_eq_of_full hfull, hgrown.capacity_eq, h.capacity_eq]
  have hqueued := h.ring.len_le
  rw [h.capacity_eq] at hqueued
  rw [List.length_nil] at hsame
  rw [TransmitSink.queued]
  omega

/-! ## Calls that nobody disturbs -/

/-- A call that began at `o` is at `p`, and nobody else has moved or is going to. -/
structure Alone (o p : Progress E) : Prop where
  pauses_eq : p.pauses = []
  gaps_eq : p.gaps = []
  deliveries_eq : p.sink.feed.deliveries = o.sink.feed.deliveries

namespace Alone

variable (h : Alone o p)
include h

theorem gap : gap p = .ok () p := by
  simp only [Call.gap, h.gaps_eq]

theorem askEngine : Ends askEngine p (fun _ q => Alone o q) never := by
  simp only [Ends, Call.askEngine]
  cases p.sink.engine with
  | none => exact h
  | some engine => exact ⟨h.pauses_eq, h.gaps_eq, h.deliveries_eq⟩

theorem lookToWork : Ends lookToWork p (fun _ q => Alone o q) (fun _ q => Alone o q) := by
  refine .step (sink_eq p) ?_
  by_cases hphase : p.sink.phase = .streaming
  · rw [if_pos hphase]
    refine h.askEngine.seq_never ?_
    intro streams q hq
    cases streams with
    | true => exact hq
    | false =>
        have hsame := Feed.report_deliveries q.sink.feed (.engineStopped p.sink.queued)
        exact ⟨hq.pauses_eq, hq.gaps_eq, hsame.trans hq.deliveries_eq⟩
  · rw [if_neg hphase]
    exact h

/-- There is room at once, or the wait for it comes to nothing. -/
theorem awaitRoom :
    Ends awaitRoom p (fun _ q => q = p ∧ p.sink.feed.ring.hasRoom = true)
      (fun _ q => Alone o q) := by
  simp only [Call.awaitRoom, waitUntil, Ends]
  rw [h.pauses_eq, waitThrough_nil]
  have hasks : (hasRoom : Call E Bool) p = .ok p.sink.feed.ring.hasRoom p := rfl
  cases hroom : p.sink.feed.ring.hasRoom with
  | true =>
      rw [turn, bind_of_ok hasks, hroom]
      exact ⟨rfl, rfl⟩
  | false =>
      rw [turn, bind_of_ok hasks, hroom]
      exact h.lookToWork.seq (fun _ q hq => hq) fun _ _ hq => hq

theorem pushComplete (count : Nat) (hp : p.sink.feed.ring.Sound)
    (hroom : p.sink.feed.ring.hasRoom = true)
    (hscratch : p.sink.scratch.length = p.sink.feed.ring.slotSize) :
    Ends (pushComplete count) p (fun _ q => Alone o q) never := by
  refine .step h.gap (.step (pushScratch_of_room hp hroom hscratch) ?_)
  refine ⟨h.pauses_eq, h.gaps_eq, Eq.trans ?_ h.deliveries_eq⟩
  exact (Feed.note_deliveries _ (.queued _)).trans (List.append_nil _)

theorem takeBatch (input : List Sample) (hp : p.sink.Sound)
    (hroom : p.sink.feed.ring.hasRoom = true) :
    Ends (takeBatch input) p (fun _ q => Alone o q) never := by
  have hfilled (batch : List Sample) : Alone o { p with sink := p.sink.fill batch } :=
    ⟨h.pauses_eq, h.gaps_eq, h.deliveries_eq⟩
  rcases Nat.lt_or_ge input.length p.sink.free with hlt | hle
  · exact .of_ok (takeBatch_of_short hp hlt) (hfilled input)
  · have hlen : (input.take p.sink.free).length = p.sink.free := List.length_take_of_le hle
    simp only [Ends, takeBatch_of_long hp hle]
    exact (hfilled _).pushComplete p.sink.free hp.ring hroom
      ((TransmitSink.fill_scratch_length hp hlen.le).trans hp.scratch_length)

theorem work (input : List Sample) (hp : p.sink.Sound) :
    Ends (work input) p (fun _ q => Alone o q) (fun _ q => Alone o q) := by
  rw [work_eq]
  refine .step h.gap (h.awaitRoom.seq ?_ fun _ _ hq => hq)
  rintro _ q ⟨rfl, hroom⟩
  exact (h.takeBatch input hp hroom).imp (fun _ _ hr => hr) fun _ _ hnever => hnever.elim

end Alone

theorem Rounds.alone (hr : Rounds input p rest q) (hp : p.sink.Sound) (h : Alone o p) :
    Alone o q := by
  induction hr with
  | refl => exact h
  | step hr he ih => exact (ih.work _ (hr.sound hp)).ok he

theorem Alone.workAll (h : Alone o p) (input : List Sample) (hp : p.sink.Sound) :
    Ends (workAll input) p (fun _ q => Alone o q) (fun _ q => Alone o q) := by
  refine (workAll_ends input hp).imp (fun _ _ hr => hr.alone hp h) ?_
  rintro halt q ⟨rest, r, _, hrounds, hlast⟩
  exact ((hrounds.alone hp h).work rest (hrounds.sound hp)).error hlast

end Call

end IqTransmit
