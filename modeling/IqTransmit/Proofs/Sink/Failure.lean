import IqTransmit.Engine.Steered
import IqTransmit.Proofs.Sink.Integrity

/-!
Calls of the fill side that fail. A call of `work` fails only over an engine that has ended, at a
full ring, and before it has touched the scratch slot. `workAll` fails with one of its calls. Each
call before that one completed the scratch slot, or there would have been no sample left; so what
`workAll` has taken by then is in whole slots, and none of it is pending.
-/

namespace IqTransmit

variable {E : Type}

namespace TransmitSink

variable {s t : TransmitSink E} {input : List Sample} {count : Nat} {halt : Halt}

/-- A sink that streams and whose ring is full. -/
structure Jammed (s : TransmitSink E) : Prop where
  streaming : s.phase = .streaming
  full : s.queued = s.config.bufferCount

/-- What a failed call took of its input, and the slots that it pushed: either nothing, and then the
pending bytes are as they were, or samples whose bytes make up exactly these slots together with the
bytes pending before. -/
inductive TookWhole (s t : TransmitSink E) : List Sample → List Slot → Prop where
  | nothing (fillOffset_eq : t.fillOffset = s.fillOffset) (pending_eq : t.pending = s.pending) :
      TookWhole s t [] []
  | slots {used : List Sample} {pushed : List Slot} {bytes : List Int8} (used_ne : used ≠ [])
      (converted : s.converter.convert used (2 * used.length) = .ok bytes)
      (flatten_eq : pushed.flatten = s.pending ++ bytes) (emptied : t.fillOffset = 0) :
      TookWhole s t used pushed

/-- A call that fails does so at a full ring, over an engine that was to drain it. -/
theorem Blocked.jammed (hb : Blocked s halt t) (h : s.Invariant) :
    halt = .waiting ∨ halt = .failed .engineStopped ∧ Jammed t := by
  have ht := hb.moved.invariant h
  have hfull : t.queued = t.config.bufferCount :=
    (ht.ring.len_eq_of_full hb.full).trans ht.capacity_eq
  cases hb.cause with
  | inl hwaits => exact .inl hwaits
  | inr hgone => exact .inr ⟨hgone.1, hgone.2, hfull⟩

/-- A call that leaves samples of its input has completed the scratch slot. -/
theorem Worked.fillOffset_of_left (hw : Worked input s count t) (hleft : input.drop count ≠ []) :
    t.fillOffset = 0 := by
  cases hw with
  | partly _ _ => exact absurd List.drop_length hleft
  | completing _ _ _ _ => rfl

end TransmitSink

open TransmitSink (Jammed TookWhole Reachable streamed_refl)

namespace Call

variable [TransferEngine E] {p q r : Progress E} {input rest : List Sample} {halt : Halt}

theorem Rounds.left_cases (hr : Rounds input p rest q) (h : p.sink.Invariant) (hrest : rest ≠ []) :
    (rest = input ∧ q = p) ∨ (rest.length < input.length ∧ q.sink.fillOffset = 0) := by
  cases hr with
  | refl => exact .inl ⟨rfl, rfl⟩
  | @step rest r _ count hr he =>
      have hworked := (work_ends rest (hr.sound h.toSound)).ok he
      obtain ⟨used, hused, _⟩ := (streamed_refl h).rounds hr
      have hinput := congrArg List.length hused
      have hpos := hworked.count_pos (hr.sound h.toSound) (List.ne_nil_of_drop_ne_nil hrest)
      have hcount := hworked.count_le
      rw [List.length_append] at hinput
      refine .inr ⟨?_, hworked.fillOffset_of_left hrest⟩
      rw [List.length_drop]
      omega

/-- Where a call fails with samples left, those before it have taken whole slots. -/
theorem Rounds.tookWhole (hr : Rounds input p rest r) (h : p.sink.Invariant) (hrest : rest ≠ [])
    (hlast : work rest r = .error halt q) :
    ∃ used pushed popped, used ++ rest = input ∧ p.sink.feed.Flow q.sink.feed pushed popped ∧
      TookWhole p.sink q.sink used pushed := by
  have hi := hr.invariant h
  have hmoved := ((work_ends rest hi.toSound).error hlast).moved
  obtain ⟨more, hmore, _⟩ := hmoved.drained.flow hi.ring
  obtain ⟨used, hused, hstreamed⟩ := (streamed_refl h).rounds hr
  obtain ⟨pushed, popped, hflow, hbytes⟩ := hstreamed.flow
  cases hr.left_cases h hrest with
  | inl hnone =>
      obtain ⟨rfl, rfl⟩ := hnone
      exact ⟨[], [], more, rfl, hmore, .nothing hmoved.fillOffset_eq hmoved.pending_eq⟩
  | inr hsome =>
      have hnothing : r.sink.pending = [] := by
        rw [TransmitSink.pending, hsome.2, List.take_zero]
      have hne : used ≠ [] := by
        rintro rfl
        rw [← hused] at hsome
        exact absurd hsome.1 (Nat.lt_irrefl _)
      rw [hnothing, List.append_nil] at hbytes
      refine ⟨used, pushed, popped ++ more, hused, ?_, .slots hne
        (p.sink.converter.convert_of_size_eq rfl) hbytes (hmoved.fillOffset_eq.trans hsome.2)⟩
      simpa using hflow.trans hmore

end Call

namespace TransmitSink

variable [TransferEngine E] {s : TransmitSink E}

open Call (Rounds attempt work workAll)

/-- Whatever the engine does and whoever drains meanwhile, a call of the fill side that ends without
a result is left waiting, or it fails because the engine of a sink that streams has ended, at a full
ring. A failed call of `work` has pushed nothing and left the pending bytes. A failed call of
`workAll` has taken the part of its input that its calls of `work` took before the last one, and no
byte of that part is pending: either it is empty, or it has gone into whole slots. -/
theorem failed_fill_leaves_whole_slots (hr : Reachable s) (input : List Sample)
    (pauses : List Pause) (gaps : List (List Move)) :
    (∀ halt q, work input ⟨s, pauses, gaps⟩ = .error halt q → halt = .waiting ∨
      halt = .failed .engineStopped ∧ Jammed q.sink ∧ q.sink.fillOffset = s.fillOffset ∧
        q.sink.pending = s.pending ∧ ∃ popped, s.feed.Flow q.sink.feed [] popped) ∧
    (∀ halt q, workAll input ⟨s, pauses, gaps⟩ = .error halt q → halt = .waiting ∨
      halt = .failed .engineStopped ∧ Jammed q.sink ∧ ∃ used rest r pushed popped,
        used ++ rest = input ∧ rest ≠ [] ∧ Rounds input ⟨s, pauses, gaps⟩ rest r ∧
        work rest r = .error halt q ∧ s.feed.Flow q.sink.feed pushed popped ∧
        TookWhole s q.sink used pushed) := by
  have h := hr.invariant
  constructor
  · intro halt q he
    have hblocked := (Call.work_ends (p := ⟨s, pauses, gaps⟩) input h.toSound).error he
    obtain ⟨popped, hflow, _⟩ := hblocked.moved.drained.flow h.ring
    refine (hblocked.jammed h).imp id fun hfailed => ?_
    exact ⟨hfailed.1, hfailed.2, hblocked.moved.fillOffset_eq, hblocked.moved.pending_eq, popped,
      hflow⟩
  · intro halt q he
    obtain ⟨rest, r, hrest, hrounds, hlast⟩ :=
      (Call.workAll_ends (p := ⟨s, pauses, gaps⟩) input h.toSound).error he
    have hi := hrounds.invariant h
    have hblocked := (Call.work_ends rest hi.toSound).error hlast
    obtain ⟨used, pushed, popped, hused, hflow, htook⟩ := hrounds.tookWhole h hrest hlast
    refine (hblocked.jammed hi).imp id fun hfailed => ?_
    exact ⟨hfailed.1, hfailed.2, used, rest, r, pushed, popped, hused, hrest, hrounds, hlast, hflow,
      htook⟩

/-- Two samples are offered behind a pending one, and the ring holds one slot. The first of them
completes it, the second finds the ring full and the engine at its end, and so does the next call. -/
theorem failed_fill_leaves_one_slot :
    ∃ (s : TransmitSink Steered) (q r : Progress Steered) (used : List Sample) (pushed : List Slot),
      Reachable s ∧ s.fillOffset = 2 ∧
        workAll [⟨⟨0xbf800000⟩, ⟨0⟩⟩, ⟨⟨0⟩, ⟨0x3f800000⟩⟩] ⟨s, [], []⟩ =
          .error (.failed .engineStopped) q ∧
        Jammed q.sink ∧ q.sink.fillOffset = 0 ∧ used ≠ [] ∧ TookWhole s q.sink used pushed ∧
        work [⟨⟨0⟩, ⟨0x3f800000⟩⟩] ⟨q.sink, [], []⟩ = .error (.failed .engineStopped) r ∧
        r.sink.pending = q.sink.pending := by
  have hmade := Reachable.make (rfl : make { bufferCount := 1, slotSize := 4 }
    (some ({ transferSize := 4, endsAt := 1 } : Steered)) = .ok _)
  have hpending := Reachable.workAll (p := ⟨_, [], []⟩) hmade.start
    (rfl : attempt (workAll [⟨⟨0x3f800000⟩, ⟨0⟩⟩]) ⟨_, [], []⟩ = .ok _ _)
  have hjammed := Reachable.workAll (p := ⟨_, [], []⟩) hpending
    (rfl : attempt (workAll [⟨⟨0xbf800000⟩, ⟨0⟩⟩, ⟨⟨0⟩, ⟨0x3f800000⟩⟩]) ⟨_, [], []⟩ = .ok _ _)
  obtain ⟨_, hall⟩ := failed_fill_leaves_whole_slots hpending
    [⟨⟨0xbf800000⟩, ⟨0⟩⟩, ⟨⟨0⟩, ⟨0x3f800000⟩⟩] [] []
  obtain ⟨hone, _⟩ := failed_fill_leaves_whole_slots hjammed [⟨⟨0⟩, ⟨0x3f800000⟩⟩] [] []
  obtain ⟨_, hfull, used, _, _, pushed, _, _, _, _, _, _, htook⟩ :=
    (hall (.failed .engineStopped) _ rfl).resolve_left (by decide)
  obtain ⟨_, _, _, hsame, _⟩ := (hone (.failed .engineStopped) _ rfl).resolve_left (by decide)
  refine ⟨_, _, _, used, pushed, hpending, by decide +kernel, rfl, hfull, by decide +kernel, ?_,
    htook, rfl, hsame⟩
  cases htook with
  | nothing hkept _ => exact absurd hkept (by decide +kernel)
  | slots hused _ _ _ => exact hused

end TransmitSink

end IqTransmit
