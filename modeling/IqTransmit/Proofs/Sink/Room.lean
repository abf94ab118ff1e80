import IqTransmit.Engine.Steered
import IqTransmit.Proofs.Sink.Accounting
import IqTransmit.Proofs.Sink.Flush

/-!
No push is refused. Room is looked for in one section of the lock and used in a later one, and a
stop does not look at the answers of its pushes; but others only ever drain, so that the room is
still there. Stated of the calls themselves: with every push at a full ring made a fault they are
the same calls, and they do not fault.
-/

namespace IqTransmit

variable {E : Type}

namespace Call

variable {α β : Type} {call : Call E α} {p q : Progress E}
variable {done : α → Progress E → Prop} {halted : Halt → Progress E → Prop}

/-! ## Calls with another push -/

/-- Queues the scratch slot; without room for it this is a fault. -/
def demandPush : Call E Bool := do
  if ← hasRoom then pushScratch
  else throw (.fault .outOfRange)

theorem demandPush_of_room (hroom : p.sink.feed.ring.hasRoom = true) :
    demandPush p = pushScratch p := by
  have hasks : (hasRoom : Call E Bool) p = .ok true p := by rw [hasRoom, hroom]
  rw [demandPush, bind_of_ok hasks]
  rfl

section

variable [TransferEngine E]

/-- `work` with another push. -/
def workWith (push : Call E Bool) (input : List Sample) : Call E Nat := do
  gap
  awaitRoom
  let before ← sink
  let free ← checked (subtractExactly before.scratch.length before.fillOffset)
  let count := (input.take (free / 2)).length
  let batch ← checked (takeExactly count input)
  convertBatch batch
  if count = free / 2 then
    gap
    if ← push then
      update fun sink => { sink with fillOffset := 0 }
      return count
    else
      deferPush (count * 2)
      return 0
  else return count

/-- `pushSilence` with another push. -/
def pushSilenceWith (push : Call E Bool) : Nat → Call E Unit
  | 0 => pure ()
  | count + 1 => do
      awaitRoomToStop
      let _ ← push
      pushSilenceWith push count

/-- `queueTail` with another push. -/
def queueTailWith (push : Call E Bool) : Call E Unit := do
  awaitRoomToStop
  padScratch
  let _ ← push
  update fun sink => { sink with
    fillOffset := 0
    scratch := List.replicate sink.scratch.length 0 }
  pushSilenceWith push SinkConfig.trailingSilence

/-- `flushAndWait` with another push. -/
def flushAndWaitWith (now : Instant) (push : Call E Bool) : Call E Unit := do
  let before ← sink
  let _ ← checked (before.config.deadline now)
  queueTailWith push
  endStream

/-- `stopAt` with another push. -/
def stopWith (now : Instant) (push : Call E Bool) : Call E Unit := do
  let before ← sink
  match before.engine with
  | none => fail .noDevice
  | some _ =>
      if before.phase = .streaming then
        update fun sink => { sink with phase := .stopping }
        stopEngine (← attempt (flushAndWaitWith now push))
      else pure ()

theorem workWith_pushScratch (input : List Sample) :
    (workWith pushScratch input : Call E Nat) = work input := rfl

theorem pushSilenceWith_pushScratch (count : Nat) :
    (pushSilenceWith pushScratch count : Call E Unit) = pushSilence count := by
  induction count with
  | zero => rfl
  | succ count ih => rw [pushSilenceWith, pushSilence, ih]

theorem queueTailWith_pushScratch : (queueTailWith pushScratch : Call E Unit) = queueTail := by
  rw [queueTailWith, pushSilenceWith_pushScratch]
  rfl

theorem flushAndWaitWith_pushScratch (now : Instant) :
    (flushAndWaitWith now pushScratch : Call E Unit) = flushAndWait now := by
  rw [flushAndWaitWith, queueTailWith_pushScratch, flushAndWait, flush_eq]

theorem stopWith_pushScratch (now : Instant) :
    (stopWith now pushScratch : Call E Unit) = stopAt now := by
  rw [stopWith, flushAndWaitWith_pushScratch]
  rfl

end

/-! ## Pushes that find room -/

/-- A call goes on in the same way if it does so wherever its first part leads. -/
theorem Ends.bind_congr {f g : α → Call E β} (h : Ends call p done halted)
    (hfg : ∀ a q, done a q → f a q = g a q) : (call >>= f) p = (call >>= g) p := by
  cases he : call p with
  | ok a q =>
      rw [bind_of_ok he, bind_of_ok he]
      exact hfg a q (h.ok he)
  | error halt q => rw [bind_of_error he, bind_of_error he]

theorem sink_ends (p : Progress E) :
    Ends (sink : Call E (TransmitSink E)) p (fun s q => s = p.sink ∧ q = p) never := ⟨rfl, rfl⟩

theorem checked_ends (result : Except Fault α) (p : Progress E) :
    Ends (checked result) p (fun _ q => q = p) (fun halt _ => ∃ fault, halt = .fault fault) := by
  cases result with
  | ok a => exact rfl
  | error fault => exact ⟨fault, rfl⟩

/-- Converting changes nothing but the scratch slot. -/
theorem convertBatch_ends (batch : List Sample) (p : Progress E) :
    Ends (convertBatch batch) p
      (fun _ q => ∃ scratch fillOffset,
        q = { p with sink := { p.sink with scratch, fillOffset } })
      (fun halt _ => ∃ fault, halt = .fault fault) := by
  refine Ends.step (sink_eq p) ?_
  refine (checked_ends _ p).seq ?_ fun _ _ hf => hf
  rintro held _ rfl
  refine (checked_ends _ _).seq ?_ fun _ _ hf => hf
  rintro target _ rfl
  refine (checked_ends _ _).seq ?_ fun _ _ hf => hf
  rintro bytes _ rfl
  exact ⟨_, _, rfl⟩

theorem padScratch_ends (p : Progress E) :
    Ends padScratch p (fun _ q => q.sink.feed = p.sink.feed) (fun _ _ => True) := by
  refine Ends.step (sink_eq p) ?_
  refine (checked_ends _ p).seq ?_ fun _ _ _ => trivial
  rintro kept _ rfl
  exact rfl

variable [TransferEngine E]

/-- Whatever happens between the check for room and the push, the push of `work` finds room. -/
theorem workWith_demandPush (input : List Sample) (hp : p.sink.feed.ring.Sound) :
    workWith demandPush input p = work input p := by
  rw [← workWith_pushScratch]
  refine (gap_ends hp).bind_congr ?_
  intro _ q hq
  refine (awaitRoom_ends (hq.drained.sound hp)).bind_congr ?_
  rintro _ r ⟨hr, hroom⟩
  have hs : r.sink.feed.ring.Sound := (hq.trans hr).drained.sound hp
  refine (sink_ends r).bind_congr ?_
  rintro _ r ⟨rfl, rfl⟩
  refine (checked_ends _ r).bind_congr ?_
  rintro free r rfl
  refine (checked_ends _ r).bind_congr ?_
  rintro batch r rfl
  refine (convertBatch_ends batch r).bind_congr ?_
  rintro _ t ⟨scratch, fillOffset, ht⟩
  have hts : t.sink.feed.ring.Sound := by rwa [ht]
  have htroom : t.sink.feed.ring.hasRoom = true := by rwa [ht]
  split
  · refine (gap_ends hts).bind_congr ?_
    intro _ u hu
    -- only drains came in between
    have hpush := demandPush_of_room (hu.drained.hasRoom hts htroom)
    simp only [Bind.bind, EStateM.bind, hpush]
  · rfl

theorem pushSilenceWith_demandPush (count : Nat) (hp : p.sink.feed.ring.Sound) :
    pushSilenceWith demandPush count p = pushSilence count p := by
  rw [← pushSilenceWith_pushScratch]
  induction count generalizing p with
  | zero => rfl
  | succ count ih =>
      refine (awaitRoomToStop_ends hp).bind_congr ?_
      rintro _ q ⟨hq, hroom⟩
      have hs := hq.drained.sound hp
      have hpush := demandPush_of_room hroom
      have hrest := (pushScratch_cases hs hroom).bind_congr
        (f := fun _ => pushSilenceWith demandPush count)
        (g := fun _ => pushSilenceWith pushScratch count) (by
          rintro _ _ ⟨_, _, rfl⟩
          exact ih (hs.enqueue hroom))
      simp only [Bind.bind, EStateM.bind, hpush] at hrest ⊢
      exact hrest

theorem queueTailWith_demandPush (hp : p.sink.feed.ring.Sound) :
    queueTailWith demandPush p = queueTail p := by
  refine (awaitRoomToStop_ends hp).bind_congr ?_
  rintro _ q ⟨hq, hroom⟩
  have hs := hq.drained.sound hp
  refine (padScratch_ends q).bind_congr ?_
  intro _ r hr
  rw [← hr] at hs hroom
  have hpush := demandPush_of_room hroom
  have hrest := (pushScratch_cases hs hroom).bind_congr
    (f := fun _ => do
      update fun sink => { sink with
        fillOffset := 0
        scratch := List.replicate sink.scratch.length 0 }
      pushSilenceWith demandPush SinkConfig.trailingSilence)
    (g := fun _ => do
      update fun sink => { sink with
        fillOffset := 0
        scratch := List.replicate sink.scratch.length 0 }
      pushSilence SinkConfig.trailingSilence)
    (by
      rintro _ _ ⟨_, _, rfl⟩
      exact pushSilenceWith_demandPush _ (hs.enqueue hroom))
  simp only [Bind.bind, EStateM.bind, hpush] at hrest ⊢
  exact hrest

theorem flushAndWaitWith_demandPush (now : Instant) (hp : p.sink.feed.ring.Sound) :
    flushAndWaitWith now demandPush p = flushAndWait now p := by
  rw [← flushAndWaitWith_pushScratch]
  refine (sink_ends p).bind_congr ?_
  rintro _ p ⟨rfl, rfl⟩
  refine (checked_ends _ p).bind_congr ?_
  rintro deadline p rfl
  simp only [Bind.bind, EStateM.bind, queueTailWith_pushScratch, queueTailWith_demandPush hp]

/-- Each of the six pushes of a stop finds the room that was waited for. -/
theorem stopWith_demandPush (now : Instant) (hp : p.sink.feed.ring.Sound) :
    stopWith now demandPush p = stopAt now p := by
  rw [← stopWith_pushScratch]
  refine (sink_ends p).bind_congr ?_
  rintro _ p ⟨rfl, rfl⟩
  have hflush := flushAndWaitWith_demandPush
    (p := { p with sink := { p.sink with phase := .stopping } }) now hp
  cases p.sink.engine with
  | none => rfl
  | some engine =>
      simp only
      split
      · simp only [update, Bind.bind, EStateM.bind, attempt, flushAndWaitWith_pushScratch, hflush]
      · rfl

end Call

namespace TransmitSink

variable {s t : TransmitSink E} {input : List Sample} {count : Nat}

/-- The samples taken move the fill offset on, round to 0 with a complete slot and never back. -/
theorem Worked.fillOffset_eq (hw : Worked input s count t) (h : s.Sound) :
    t.fillOffset = (s.fillOffset + 2 * count) % s.feed.ring.slotSize := by
  have hfree := h.free_eq
  have hlen := h.scratch_length
  cases hw with
  | @partly t moved short =>
      have hlt : s.fillOffset + 2 * input.length < s.feed.ring.slotSize := by omega
      rw [Nat.mod_eq_of_lt hlt, fill, moved.fillOffset_eq, Nat.mul_comm]
  | completing _ _ _ _ =>
      have hfull : s.fillOffset + 2 * s.free = s.feed.ring.slotSize := by omega
      rw [hfull, Nat.mod_self, pushed]

variable [TransferEngine E]

open Call (attempt work workWith stopAt stopWith demandPush)

/-- However others drain meanwhile, every push of `work` and of a stop finds room: the calls are the
same if a push without room is a fault, and there is none but that of a stop whose deadline the
clock never comes to. So no push is ever deferred, the fill offset is never taken back, and a batch
that is not empty is taken in part at least. -/
theorem pushes_find_room (hr : Reachable s) (now : Instant) (pauses : List Pause)
    (gaps : List (List Move)) :
    s.feed.stats.deferred = 0 ∧
      (∀ input,
        workWith demandPush input ⟨s, pauses, gaps⟩ = work input ⟨s, pauses, gaps⟩ ∧
          (∀ fault q, work input ⟨s, pauses, gaps⟩ ≠ .error (.fault fault) q) ∧
          (∀ count q, work input ⟨s, pauses, gaps⟩ = .ok count q →
            (input ≠ [] → 1 ≤ count) ∧ count ≤ input.length ∧
              q.sink.fillOffset = (s.fillOffset + 2 * count) % s.config.slotSize ∧
              q.sink.feed.stats.deferred = 0) ∧
          ∀ halt q, work input ⟨s, pauses, gaps⟩ = .error halt q →
            q.sink.fillOffset = s.fillOffset ∧ q.sink.feed.stats.deferred = 0) ∧
      stopWith now demandPush ⟨s, pauses, gaps⟩ = stopAt now ⟨s, pauses, gaps⟩ ∧
      (∀ fault q, attempt (stopAt now) ⟨s, pauses, gaps⟩ = .error (.fault fault) q ↔
        s.phase = .streaming ∧ fault = .timeRange ∧ s.config.deadline now = .error .timeRange ∧
          q = ⟨{ s with phase := .stopping }, pauses, gaps⟩) ∧
      ∀ result q, attempt (stopAt now) ⟨s, pauses, gaps⟩ = .ok result q →
        q.sink.feed.stats.deferred = 0 ∧
          (s.phase = .streaming → result = .ok () → q.sink.feed.queuedSlots =
            s.feed.queuedSlots ++
              (s.pending ++ List.replicate (s.config.slotSize - s.fillOffset) 0) ::
                List.replicate 5 (List.replicate s.config.slotSize 0)) := by
  have h := hr.invariant
  refine ⟨h.deferred_eq, fun input => ?_, Call.stopWith_demandPush now h.ring, ?_, ?_⟩
  · have hends := Call.work_ends (p := ⟨s, pauses, gaps⟩) input h.toSound
    refine ⟨Call.workWith_demandPush input h.ring, fun fault q => ?_, ?_, ?_⟩
    · exact Call.work_ne_fault (p := ⟨s, pauses, gaps⟩) h.toSound fault
    · intro count q he
      have hw := hends.ok he
      refine ⟨hw.count_pos h.toSound, hw.count_le, ?_, (hw.invariant h).deferred_eq⟩
      rw [hw.fillOffset_eq h.toSound, h.slotSize_eq]
    · intro halt q he
      have hm := (hends.error he).moved
      exact ⟨hm.fillOffset_eq, (hm.invariant h).deferred_eq⟩
  · intro fault q
    by_cases hphase : s.phase = .streaming
    · rw [Call.stop_faults_iff h.toSound hphase (h.bound_of_streaming hphase)]
      simp only [hphase, true_and]
    · obtain ⟨_, hsame⟩ := Call.stop_of_not_streaming (p := ⟨s, pauses, gaps⟩) now hphase
      rw [hsame]
      simp [hphase]
  · intro result q he
    refine ⟨(Call.invariant_stop (p := ⟨s, pauses, gaps⟩) h he).deferred_eq, ?_⟩
    rintro hphase rfl
    obtain ⟨flushed, queued, t, hflush, hended, hresult⟩ :=
      (Call.stop_ends now h.toSound hphase (h.bound_of_streaming hphase)).ok he
    obtain ⟨_, hflow⟩ := ((hflush.accounted.withPhase .stopped).moved hended).flow
    have hflushed : flushed = .ok () := by
      rcases hresult with hsame | ⟨_, _, hfailed⟩
      · exact hsame.symm
      · cases hfailed
    subst hflushed
    cases hflush with
    | whole _ _ _ =>
        refine hflow.queued_eq.trans ?_
        rw [← h.lastSlots_eq]
        rfl

/-- The ring is full, and a drain during the wait makes room for one slot more. -/
theorem pushes_find_room_behind_full_ring :
    ∃ (s : TransmitSink Steered) (pauses : List Pause) (q : Progress Steered),
      Reachable s ∧ s.feed.ring.hasRoom = false ∧
        workWith demandPush [⟨⟨0x3f800000⟩, ⟨0⟩⟩] ⟨s, pauses, []⟩ = .ok 1 q ∧
        q.sink.fillOffset = 0 ∧ q.sink.feed.stats.deferred = 0 := by
  have hmade := Reachable.make (rfl : make { bufferCount := 1, slotSize := 2 }
    (none : Option Steered) = .ok _)
  have hfull := Reachable.work (p := ⟨_, [], []⟩) hmade
    (rfl : attempt (work [⟨⟨0xbf800000⟩, ⟨0⟩⟩]) ⟨_, [], []⟩ = .ok _ _)
  obtain ⟨_, hwork, _⟩ := pushes_find_room hfull ⟨0⟩ [{ moves := [.drain [0, 0]] }] []
  obtain ⟨hsame, _, hok, _⟩ := hwork [⟨⟨0x3f800000⟩, ⟨0⟩⟩]
  obtain ⟨_, _, hoffset, hdeferred⟩ := hok 1 _ rfl
  exact ⟨_, _, _, hfull, by decide +kernel, hsame.trans rfl, hoffset.trans (by decide +kernel),
    hdeferred⟩

end TransmitSink

end IqTransmit
