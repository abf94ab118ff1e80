import IqTransmit.Proofs.Sink.Scratch

/-!
A call of `work` on a sound sink. It takes what the scratch slot has place for, and the slot that
this completes always finds room, since only drains came between the check and the push. It never
faults, and it ends without a result only at a full ring.
-/

namespace IqTransmit

variable {E : Type}

namespace TransmitSink

variable {input : List Sample} {s t : TransmitSink E} {count : Nat}

/-- What a call of `work` makes of a sink, and how many samples it takes. -/
inductive Worked (input : List Sample) (s : TransmitSink E) : Nat → TransmitSink E → Prop where
  | partly {t : TransmitSink E} (moved : Moved s t) (short : input.length < s.free) :
      Worked input s input.length (t.fill input)
  | completing {t u : TransmitSink E} (moved : Moved s t) (room : t.feed.ring.hasRoom = true)
      (long : s.free ≤ input.length) (after : Moved (t.fill (input.take s.free)) u) :
      Worked input s s.free u.pushed

/-- The scratch slot that a batch has completed holds what was pending and the batch, and fits into
the ring. -/
theorem scratch_of_complete {u : TransmitSink E} (hs : s.Sound) (moved : Moved s t)
    (long : s.free ≤ input.length) (after : Moved (t.fill (input.take s.free)) u) :
    u.scratch = s.pending ++ Cs8.bytesOf (input.take s.free) ∧
      u.scratch.length = u.feed.ring.slotSize := by
  have ht := moved.sound hs
  obtain ⟨_, hflow, _⟩ := after.drained.flow ht.ring
  have hlen : (input.take s.free).length = t.free := by
    rw [moved.free_eq, List.length_take_of_le long]
  constructor
  · rw [after.scratch_eq, fill_scratch_of_complete ht hlen, moved.pending_eq]
  · rw [after.scratch_eq, fill_scratch_length ht hlen.le, ht.scratch_length]
    exact hflow.slotSize_eq.symm

/-- What others did before the call makes no difference to it. -/
theorem Worked.of_moved {u : TransmitSink E} (hm : Moved s t) (hw : Worked input t count u) :
    Worked input s count u := by
  cases hw with
  | partly moved short => exact .partly (hm.trans moved) (hm.free_eq ▸ short)
  | completing moved room long after =>
      rw [hm.free_eq] at long after ⊢
      exact .completing (hm.trans moved) room long after

namespace Worked

variable (h : Worked input s count t)
include h

theorem count_eq : count = min input.length s.free := by
  cases h with
  | partly _ short => omega
  | completing _ _ long _ => omega

theorem count_le : count ≤ input.length := by
  rw [h.count_eq]
  exact Nat.min_le_left _ _

theorem count_pos (hs : s.Sound) (hinput : input ≠ []) : 0 < count := by
  have hfree := hs.free_pos
  have hlen := List.length_pos_iff.mpr hinput
  rw [h.count_eq]
  omega

theorem phase_eq : t.phase = s.phase := by
  cases h with
  | partly moved _ => exact moved.phase_eq
  | completing moved _ _ after => exact after.phase_eq.trans moved.phase_eq

theorem config_eq : t.config = s.config := by
  cases h with
  | partly moved _ => exact moved.config_eq
  | completing moved _ _ after => exact after.config_eq.trans moved.config_eq

theorem bound : t.engine.isSome = s.engine.isSome := by
  cases h with
  | partly moved _ => exact moved.bound
  | completing moved _ _ after => exact after.bound.trans moved.bound

/-- The bytes of the samples taken go behind the pending ones, and whatever is pushed comes off the
front of these. -/
theorem flow (hs : s.Sound) :
    t.Sound ∧ ∃ pushed popped, s.feed.Flow t.feed pushed popped ∧
      pushed.flatten ++ t.pending = s.pending ++ Cs8.bytesOf (input.take count) ∧
      t.feed.stopping = s.feed.stopping := by
  cases h with
  | @partly t moved short =>
      obtain ⟨popped, hflow, hstop⟩ := moved.drained.flow hs.ring
      have ht := moved.sound hs
      have hb : input.length < t.free := by rwa [moved.free_eq]
      refine ⟨fill_sound ht hb, [], popped, hflow, ?_, hstop⟩
      rw [fill_pending ht hb.le, moved.pending_eq, List.take_length]
      rfl
  | @completing t u moved room long after =>
      obtain ⟨popped, hflow, hstop⟩ := moved.drained.flow hs.ring
      have ht := moved.sound hs
      obtain ⟨popped', hflow', hstop'⟩ := after.drained.flow ht.ring
      have hroom : u.feed.ring.hasRoom = true := after.drained.hasRoom ht.ring room
      obtain ⟨hscratch, hslot⟩ := scratch_of_complete hs moved long after
      have heven : 2 ∣ u.feed.ring.slotSize := by
        rw [hflow'.slotSize_eq]
        exact ht.slotSize_even
      have hpush := Feed.flow_enqueue hflow'.sound hroom hslot
      refine ⟨pushed_sound hflow'.sound hroom hslot heven, _, _,
        (hflow.trans hflow').trans hpush, ?_, hstop'.trans hstop⟩
      simpa [pushed, pending] using hscratch

end Worked

/-- The halt of a call that was to wait for the drains of an engine that has ended. -/
def EngineGone (halt : Halt) (s : TransmitSink E) : Prop :=
  halt = .failed .engineStopped ∧ s.phase = .streaming

/-- Why a call of `work` ends without a result: the ring stayed full. -/
structure Blocked (s : TransmitSink E) (halt : Halt) (t : TransmitSink E) : Prop where
  moved : Moved s t
  full : t.feed.ring.hasRoom = false
  cause : halt = .waiting ∨ EngineGone halt t

end TransmitSink

open TransmitSink (Moved Asked Worked EngineGone Blocked asked_report fill_scratch_length)

namespace Call

variable [TransferEngine E] {p q : Progress E} {input : List Sample}

theorem lookToWork_ends (p : Progress E) :
    Ends lookToWork p (fun _ q => Asked p.sink q.sink)
      (fun halt q => Asked p.sink q.sink ∧ EngineGone halt q.sink) := by
  refine Ends.step (sink_eq p) ?_
  by_cases hphase : p.sink.phase = .streaming
  · rw [if_pos hphase]
    refine (askEngine_ends p).seq_never ?_
    intro streams q hq
    cases streams with
    | true => exact hq
    | false =>
        have hreport := hq.trans (asked_report q.sink (.engineStopped p.sink.queued))
        exact ⟨hreport, rfl, hreport.phase_eq.trans hphase⟩
  · rw [if_neg hphase]
    exact Asked.refl p.sink

theorem awaitRoom_ends (hp : p.sink.feed.ring.Sound) :
    Ends awaitRoom p
      (fun _ q => Moved p.sink q.sink ∧ q.sink.feed.ring.hasRoom = true)
      (fun halt q => Blocked p.sink halt q.sink) := by
  refine (awaitingRoom_ends EngineGone lookToWork_ends none hp).imp (fun _ _ h => h) ?_
  rintro halt q ⟨hq, hfull, hwait | ⟨_, hlimit, _⟩ | hgone⟩
  · exact ⟨hq, hfull, .inl hwait⟩
  · cases hlimit
  · exact ⟨hq, hfull, .inr hgone⟩

/-- The end of a call of `work` that completed the scratch slot. -/
def pushComplete (count : Nat) : Call E Nat := do
  gap
  if ← pushScratch then
    update fun sink => { sink with fillOffset := 0 }
    return count
  else
    deferPush (count * 2)
    return 0

/-- A complete slot is pushed: there was room before the gap, so there is after it. -/
theorem pushComplete_ends (count : Nat) (hp : p.sink.feed.ring.Sound)
    (hroom : p.sink.feed.ring.hasRoom = true)
    (hscratch : p.sink.scratch.length = p.sink.feed.ring.slotSize) :
    Ends (pushComplete count) p
      (fun taken q => taken = count ∧ ∃ u, Moved p.sink u ∧ q.sink = u.pushed) never := by
  refine (gap_ends hp).seq_never ?_
  intro _ q hq
  obtain ⟨_, hflow, _⟩ := hq.drained.flow hp
  have hlen : q.sink.scratch.length = q.sink.feed.ring.slotSize := by
    rw [hq.scratch_eq, hflow.slotSize_eq, hscratch]
  -- only drains came in between, so that the slot is never taken back
  have hpush := pushScratch_of_room hflow.sound (hq.drained.hasRoom hp hroom) hlen
  exact Ends.step hpush ⟨rfl, q.sink, hq, rfl⟩

/-- What `work` does once there is room. -/
def takeBatch (input : List Sample) : Call E Nat := do
  let before ← sink
  let free ← checked (subtractExactly before.scratch.length before.fillOffset)
  let count := (input.take (free / 2)).length
  let batch ← checked (takeExactly count input)
  convertBatch batch
  if count = free / 2 then pushComplete count else return count

theorem work_eq (input : List Sample) : work (E := E) input = (do
    gap
    awaitRoom
    takeBatch input) := rfl

theorem takeBatch_of_sound (hp : p.sink.Sound) :
    takeBatch input p = (if (input.take p.sink.free).length = p.sink.free
      then pushComplete (input.take p.sink.free).length
      else pure (input.take p.sink.free).length)
        { p with sink := p.sink.fill (input.take p.sink.free) } := by
  have hfree := hp.free_eq
  have hsub : subtractExactly p.sink.scratch.length p.sink.fillOffset = .ok _ :=
    subtractExactly_eq_ok_iff.mpr ⟨by omega, rfl⟩
  have hcount : (input.take p.sink.free).length ≤ input.length := List.length_take_le' _ _
  have hbatch : takeExactly (input.take p.sink.free).length input = .ok _ :=
    takeExactly_eq_ok_iff.mpr ⟨hcount, rfl⟩
  have htaken : input.take (input.take p.sink.free).length = input.take p.sink.free := by
    rw [List.length_take, List.take_eq_take_iff]
    omega
  have hfits : (input.take p.sink.free).length ≤ p.sink.free := List.length_take_le _ _
  rw [htaken] at hbatch
  calc
    takeBatch input p = _ := bind_of_ok (sink_eq p)
    _ = _ := bind_of_ok (checked_of_ok hsub)
    _ = _ := bind_of_ok (checked_of_ok hbatch)
    _ = _ := bind_of_ok (convertBatch_of_fits hp hfits)

/-- An input for which there is more place than it needs is all taken. -/
theorem takeBatch_of_short (hp : p.sink.Sound) (hlt : input.length < p.sink.free) :
    takeBatch input p = .ok input.length { p with sink := p.sink.fill input } := by
  have hall : input.take p.sink.free = input := List.take_of_length_le hlt.le
  rw [takeBatch_of_sound hp, hall, if_neg (Nat.ne_of_lt hlt)]
  rfl

/-- Any other completes the scratch slot. -/
theorem takeBatch_of_long (hp : p.sink.Sound) (hle : p.sink.free ≤ input.length) :
    takeBatch input p = pushComplete p.sink.free
      { p with sink := p.sink.fill (input.take p.sink.free) } := by
  have hlen : (input.take p.sink.free).length = p.sink.free := List.length_take_of_le hle
  rw [takeBatch_of_sound hp, if_pos hlen, hlen]

theorem takeBatch_ends (input : List Sample) (hp : p.sink.Sound)
    (hroom : p.sink.feed.ring.hasRoom = true) :
    Ends (takeBatch input) p (fun count q => Worked input p.sink count q.sink) never := by
  rcases Nat.lt_or_ge input.length p.sink.free with hlt | hle
  · exact .of_ok (takeBatch_of_short hp hlt) (.partly (.refl p.sink) hlt)
  · have hlen : (input.take p.sink.free).length = p.sink.free := List.length_take_of_le hle
    have hscratch : (p.sink.fill (input.take p.sink.free)).scratch.length =
        p.sink.feed.ring.slotSize := (fill_scratch_length hp hlen.le).trans hp.scratch_length
    have hpush := pushComplete_ends (p := { p with sink := p.sink.fill (input.take p.sink.free) })
      p.sink.free hp.ring hroom hscratch
    simp only [Ends, takeBatch_of_long hp hle]
    refine hpush.imp ?_ fun _ _ hnever => hnever
    rintro _ q ⟨rfl, u, hu, hq⟩
    rw [hq]
    exact .completing (.refl p.sink) hroom hle hu

/-- A call of `work` takes what there is place for once it has found room, or is kept from it by a
full ring. -/
theorem work_roomy (input : List Sample) (hp : p.sink.Sound) :
    Ends (work input) p
      (fun count q => ∃ t, Moved p.sink t ∧ t.feed.ring.hasRoom = true ∧
        Worked input t count q.sink)
      (fun halt q => Blocked p.sink halt q.sink) := by
  rw [work_eq]
  refine (gap_ends hp.ring).seq_never ?_
  intro _ q hq
  refine (awaitRoom_ends (hq.sound hp).ring).seq ?_ ?_
  · rintro _ r ⟨hr, hroom⟩
    have hmoved := hq.trans hr
    refine (takeBatch_ends input (hmoved.sound hp) hroom).imp ?_ fun _ _ hnever => hnever.elim
    exact fun count t ht => ⟨r.sink, hmoved, hroom, ht⟩
  · exact fun halt r hr => ⟨hq.trans hr.moved, hr.full, hr.cause⟩

theorem work_ends (input : List Sample) (hp : p.sink.Sound) :
    Ends (work input) p (fun count q => Worked input p.sink count q.sink)
      (fun halt q => Blocked p.sink halt q.sink) := by
  refine (work_roomy input hp).imp ?_ fun _ _ hblocked => hblocked
  rintro count q ⟨t, hmoved, _, hworked⟩
  exact hworked.of_moved hmoved

theorem work_ne_fault (hp : p.sink.Sound) (fault : Fault) :
    work input p ≠ .error (.fault fault) q := by
  intro he
  obtain ⟨_, _, hwait | ⟨hgone, _⟩⟩ := (work_ends input hp).error he
  · cases hwait
  · cases hgone

/-! ## Rounds -/

/-- Calls of `work` that each return have come from `p`, with all of an input left, to `q` with
`rest` left. -/
inductive Rounds (input : List Sample) (p : Progress E) : List Sample → Progress E → Prop where
  | refl : Rounds input p input p
  | step {rest : List Sample} {q r : Progress E} {count : Nat} :
      Rounds input p rest q → work rest q = .ok count r → Rounds input p (rest.drop count) r

theorem Rounds.sound {rest : List Sample} (h : Rounds input p rest q) (hp : p.sink.Sound) :
    q.sink.Sound := by
  induction h with
  | refl => exact hp
  | step _ he ih => exact (((work_ends _ ih).ok he).flow ih).1

theorem Rounds.phase_eq {rest : List Sample} (h : Rounds input p rest q) (hp : p.sink.Sound) :
    q.sink.phase = p.sink.phase := by
  induction h with
  | refl => rfl
  | step h he ih => exact ((work_ends _ (h.sound hp)).ok he).phase_eq.trans ih

/-- Calls of `work` for what was left of an input each time, as long as there was something left,
have taken `counts` samples of it and come from `p`, with all of it left, to `q`, with `rest`
left. -/
inductive Offers (input : List Sample) (p : Progress E) :
    List Nat → List Sample → Progress E → Prop where
  | none : Offers input p [] input p
  | offer {counts : List Nat} {rest : List Sample} {q r : Progress E} {count : Nat} :
      Offers input p counts rest q → rest ≠ [] → work rest q = .ok count r →
      Offers input p (counts ++ [count]) (rest.drop count) r

theorem Offers.rounds {counts : List Nat} {rest : List Sample}
    (h : Offers input p counts rest q) : Rounds input p rest q := by
  induction h with
  | none => exact .refl
  | offer _ _ he ih => exact .step ih he

/-- Every offer takes a sample at least, so that there are enough of them. -/
theorem workWithin_offers {count : Nat} {counts : List Nat} {rest : List Sample}
    (h : Offers input p counts rest q) (hp : p.sink.Sound) (hcount : rest.length ≤ count) :
    Ends (workWithin count rest) q (fun _ r => ∃ counts, Offers input p counts [] r)
      (fun halt r => ∃ counts rest q, rest ≠ [] ∧ Offers input p counts rest q ∧
        work rest q = .error halt r) := by
  induction count generalizing counts rest q with
  | zero =>
      obtain rfl : rest = [] := List.length_eq_zero_iff.mp (Nat.le_zero.mp hcount)
      exact ⟨counts, h⟩
  | succ count ih =>
      cases rest with
      | nil => exact ⟨counts, h⟩
      | cons s rest =>
          have hsound := h.rounds.sound hp
          have hends := work_ends (s :: rest) hsound
          have hleft : s :: rest ≠ [] := List.cons_ne_nil _ _
          simp only [Ends] at hends ⊢
          simp only [workWithin]
          cases he : work (s :: rest) q with
          | error halt r => exact ⟨counts, s :: rest, q, hleft, h, he⟩
          | ok taken r =>
              rw [he] at hends
              have hdrop := dropExactly_eq_ok_iff.mpr ⟨hends.count_le, rfl⟩
              have hpos := hends.count_pos hsound hleft
              have hlen : ((s :: rest).drop taken).length ≤ count := by
                rw [List.length_drop]
                omega
              simp only [hdrop]
              exact ih (.offer h hleft he) hlen

/-- `workAll` returns once nothing is left, and ends early only where one of its calls does that has
something left. -/
theorem workAll_offers (input : List Sample) (hp : p.sink.Sound) :
    Ends (workAll input) p (fun _ q => ∃ counts, Offers input p counts [] q)
      (fun halt q => ∃ counts rest r, rest ≠ [] ∧ Offers input p counts rest r ∧
        work rest r = .error halt q) :=
  workWithin_offers .none hp le_rfl

theorem workAll_ends (input : List Sample) (hp : p.sink.Sound) :
    Ends (workAll input) p (fun _ q => Rounds input p [] q)
      (fun halt q => ∃ rest r, rest ≠ [] ∧ Rounds input p rest r ∧ work rest r = .error halt q) := by
  refine (workAll_offers input hp).imp (fun _ _ ⟨_, hoffers⟩ => hoffers.rounds) ?_
  rintro halt q ⟨_, rest, r, hrest, hoffers, hlast⟩
  exact ⟨rest, r, hrest, hoffers.rounds, hlast⟩

theorem workAll_ne_fault (hp : p.sink.Sound) (fault : Fault) :
    workAll input p ≠ .error (.fault fault) q := by
  intro he
  obtain ⟨rest, r, _, hrounds, hlast⟩ := (workAll_ends input hp).error he
  exact work_ne_fault (hrounds.sound hp) fault hlast

end Call

end IqTransmit
