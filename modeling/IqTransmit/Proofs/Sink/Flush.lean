import IqTransmit.Proofs.Sink.Stop

/-!
A rule for the flush of a stop. What holds with some number of slots still to be queued is followed
through the waits for room and the pushes between them, whoever moves during the waits.
-/

namespace IqTransmit

/-- Moves of the engine alone. -/
def OnlyEngine (moves : List Move) : Prop := ∀ m ∈ moves, m = .engine

theorem onlyEngine_cons {m : Move} {rest : List Move} :
    OnlyEngine (m :: rest) ↔ m = .engine ∧ OnlyEngine rest := List.forall_mem_cons

/-- A pause that begins before the limit has passed. -/
def Pause.InTime (limit : Option Duration) (pause : Pause) : Prop :=
  ∀ time, limit = some time → pause.elapsed.nanoseconds < time.nanoseconds

/-- With a deadline on the clock this is to begin before the clock has come to it. -/
theorem Pause.inTime_iff {config : SinkConfig} {now : Instant} {deadline : Option Instant}
    (h : config.deadline now = .ok deadline) (pause : Pause) :
    pause.InTime config.stopTimeout ↔ ∀ reading, deadline = some reading →
      now.nanoseconds + pause.elapsed.nanoseconds < reading.nanoseconds := by
  cases hlimit : config.stopTimeout with
  | none =>
      simp only [SinkConfig.deadline, hlimit, Except.ok.injEq] at h
      subst h
      simp [Pause.InTime]
  | some limit =>
      obtain ⟨reading, hreading, rfl⟩ := SinkConfig.deadline_of_limit hlimit h
      have hbefore := (Instant.after_le_iff hreading pause.elapsed).not
      rw [Nat.not_le, Nat.not_le] at hbefore
      simpa [Pause.InTime] using hbefore.symm

namespace Call

variable {E : Type} {p : Progress E}
variable {before roomy : Nat → Progress E → Prop} {halted : Halt → Progress E → Prop}

/-- A push at a ring with room queues the slot, unless it has another size. -/
theorem pushScratch_cases (hp : p.sink.feed.ring.Sound) (hroom : p.sink.feed.ring.hasRoom = true) :
    Ends pushScratch p
      (fun pushed q => pushed = true ∧ p.sink.scratch.length = p.sink.feed.ring.slotSize ∧
        q = { p with sink := { p.sink with feed := p.sink.feed.enqueue p.sink.scratch } })
      (fun halt _ => ∃ fault, halt = .fault fault) := by
  by_cases hlen : p.sink.scratch.length = p.sink.feed.ring.slotSize
  · exact .of_ok (pushScratch_of_room hp hroom hlen) ⟨rfl, hlen, rfl⟩
  · have hwrong := SlotRing.tryPush_of_length_ne hp hroom hlen
    simp only [Ends, pushScratch, Feed.push, hwrong]
    exact ⟨_, rfl⟩

variable [TransferEngine E]

/-- A pause in time is over once its moves are. -/
theorem takePause_of_inTime {limit : Option Duration} {next : Pause} (h : next.InTime limit)
    (rest : List Pause) (p : Progress E) :
    takePause limit next rest p = moveAll next.moves { p with pauses := rest } := by
  simp only [takePause, pause]
  cases limit with
  | none => rfl
  | some time => simp only [if_neg (Nat.not_le_of_gt (h time rfl))]

/-- A pause that comes after the limit ends the call. -/
theorem takePause_of_late {limit : Option Duration} {next : Pause} (h : ¬ next.InTime limit)
    (rest : List Pause) (p : Progress E) :
    ∃ time q, limit = some time ∧
      takePause limit next rest p = .error (.failed (.stopTimeout time)) q := by
  simp only [takePause, pause]
  cases limit with
  | none => exact absurd (by rintro _ ⟨⟩) h
  | some time =>
      have hlate : time.nanoseconds ≤ next.elapsed.nanoseconds := by
        refine Nat.le_of_not_gt fun hlt => h ?_
        rintro _ ⟨rfl⟩
        exact hlt
      simp only [if_pos hlate]
      exact ⟨time, _, rfl, rfl⟩

/-- What holds `before` a wait for room with so many slots still to be queued, and what holds with
room for one more of them, `roomy` with so many after it. Neither is about the scratch slot. -/
structure FlushRule (before roomy : Nat → Progress E → Prop)
    (halted : Halt → Progress E → Prop) : Prop where
  await : ∀ n p, before (n + 1) p → Ends awaitRoomToStop p (fun _ q => roomy n q) halted
  push : ∀ n p, roomy n p → Ends pushScratch p (fun _ q => before n q) halted
  roomy_scratch : ∀ n p scratch, roomy n p →
    roomy n { p with sink := { p.sink with scratch } }
  before_scratch : ∀ n p scratch, before n p →
    before n { p with sink := { p.sink with scratch, fillOffset := 0 } }
  fault : ∀ fault p, halted (.fault fault) p

namespace FlushRule

variable (h : FlushRule before roomy halted)
include h

theorem padScratch_ends (n : Nat) (hp : roomy n p) :
    Ends padScratch p (fun _ q => roomy n q) halted := by
  refine Ends.step (sink_eq p) ?_
  cases hkept : takeExactly p.sink.fillOffset p.sink.scratch with
  | error fault => exact h.fault fault p
  | ok kept => exact h.roomy_scratch n p _ hp

theorem pushSilence_ends (count : Nat) (hp : before count p) :
    Ends (pushSilence count) p (fun _ q => before 0 q) halted := by
  induction count generalizing p with
  | zero => exact hp
  | succ count ih =>
      refine (h.await count p hp).seq (fun _ q hq => ?_) fun _ _ hh => hh
      exact (h.push count q hq).seq (fun _ r hr => ih hr) fun _ _ hh => hh

theorem queueTail_ends (hp : before (SinkConfig.trailingSilence + 1) p) :
    Ends queueTail p (fun _ q => before 0 q) halted := by
  refine (h.await _ p hp).seq (fun _ q hq => ?_) fun _ _ hh => hh
  refine (h.padScratch_ends _ hq).seq (fun _ r hr => ?_) fun _ _ hh => hh
  refine (h.push _ r hr).seq (fun _ t ht => ?_) fun _ _ hh => hh
  exact Ends.step rfl (h.pushSilence_ends _ (h.before_scratch _ t _ ht))

end FlushRule

end Call

end IqTransmit
