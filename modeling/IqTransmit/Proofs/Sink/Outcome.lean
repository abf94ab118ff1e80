import IqTransmit.Engine.Steered
import IqTransmit.Proofs.Sink.Reachable
import IqTransmit.Proofs.Sink.StopRun

/-!
What a stop comes to, for any engine. The first failure of the flush decides: an engine that ended
while the ring was full, or a wait that came too late. Only a flush without a failure lets the
answer of the engine show. In any case the engine is ended just once, behind all that was queued,
and another stop does nothing.
-/

namespace IqTransmit

variable {E : Type} {left : Nat} {limit : Option Duration} {events flush : List StopEvent}
variable {flushed result : Except SinkError Unit} {answer : Except String Unit}

namespace StopEvent

/-- The slot that was queued. -/
def queuedSlot? : StopEvent → Option Slot
  | .queued slot => some slot
  | .full _ | .late | .asked _ | .ended _ => none

/-- The slots that were queued. -/
def slots (events : List StopEvent) : List Slot := events.filterMap queuedSlot?

theorem slots_append (events more : List StopEvent) :
    slots (events ++ more) = slots events ++ slots more := List.filterMap_append

theorem slots_replicate (count : Nat) {event : StopEvent} (h : event.queuedSlot? = none) :
    slots (List.replicate count event) = [] := by
  simp [slots, h]

theorem slots_behind (count : Nat) {event : StopEvent} (h : event.queuedSlot? = none)
    (more : List StopEvent) : slots (List.replicate count event ++ more) = slots more := by
  rw [slots_append, slots_replicate count h, List.nil_append]

/-- Every look for room comes before `left` slots were queued. -/
def LooksWithin (left : Nat) (events : List StopEvent) : Prop :=
  ∀ front streams back, events = front ++ .full streams :: back → (slots front).length < left

theorem looksWithin_of_no_slot (h : slots events = []) : LooksWithin (left + 1) events := by
  rintro front streams back rfl
  rw [slots_append, List.append_eq_nil_iff] at h
  rw [h.1]
  exact Nat.succ_pos left

theorem looksWithin_of_no_look (h : ∀ streams, .full streams ∉ events) :
    LooksWithin left events := by
  rintro front streams back rfl
  exact absurd (List.mem_append_right front List.mem_cons_self) (h streams)

/-- One more slot ahead is one more to look for. -/
theorem LooksWithin.push {slot : Slot} (h : LooksWithin left events) (count : Nat) :
    LooksWithin (left + 1) (List.replicate count (.full true) ++ .queued slot :: events) := by
  intro front streams back heq
  rcases List.append_eq_append_iff.mp heq with ⟨looks, rfl, hback⟩ | ⟨looks, hfront, _⟩
  · -- the look comes behind the slot
    cases looks with
    | nil => cases hback
    | cons event looks =>
        obtain ⟨rfl, rfl⟩ := List.cons.inj hback
        have hlooks := h looks streams back rfl
        rw [slots_behind count rfl]
        simpa [slots, queuedSlot?] using hlooks
  · have hnone : slots (front ++ looks) = [] := by rw [← hfront, slots_replicate count rfl]
    rw [slots_append, List.append_eq_nil_iff] at hnone
    rw [hnone.1]
    exact Nat.succ_pos left

end StopEvent

/-- What a flush came to, by the failures in it. -/
inductive FlushVerdict (limit : Option Duration) (events : List StopEvent) :
    Except SinkError Unit → Prop where
  | abandoned : .full false ∈ events → .late ∉ events →
      FlushVerdict limit events (.error .engineStopped)
  | late {time : Duration} : limit = some time → .full false ∉ events → .late ∈ events →
      FlushVerdict limit events (.error (.stopTimeout time))
  | well : .full false ∉ events → .late ∉ events → FlushVerdict limit events (.ok ())

/-- The verdict depends on the failures only. -/
theorem FlushVerdict.congr {more : List StopEvent} (h : FlushVerdict limit events flushed)
    (hfull : .full false ∈ more ↔ .full false ∈ events) (hlate : .late ∈ more ↔ .late ∈ events) :
    FlushVerdict limit more flushed := by
  cases h with
  | abandoned hends hnot => exact .abandoned (hfull.mpr hends) (hnot ∘ hlate.mp)
  | late hlimit hnot hover => exact .late hlimit (hnot ∘ hfull.mp) (hlate.mpr hover)
  | well hnot hnot' => exact .well (hnot ∘ hfull.mp) (hnot' ∘ hlate.mp)

open TransmitSink (Moved)

namespace TransmitSink

variable {s t : TransmitSink E}

theorem Moved.queuedSlots_eq (h : Moved s t) (hs : s.feed.ring.Sound) :
    t.feed.queuedSlots = s.feed.queuedSlots := by
  obtain ⟨_, hflow, _⟩ := h.drained.flow hs
  rw [hflow.queued_eq, List.append_nil]

theorem queuedSlots_queueNext (hs : s.Sound) (hroom : s.feed.ring.hasRoom = true) :
    s.queueNext.feed.queuedSlots = s.feed.queuedSlots ++ [s.flushSlot] :=
  (Feed.flow_enqueue hs.ring hroom hs.flushSlot_length).queued_eq

end TransmitSink

namespace Call

open StopEvent (slots LooksWithin)

variable {p q r t : Progress E} {time : Duration}

theorem Overdue.moved (h : Overdue limit p time q) : Moved p.sink q.sink := by
  cases h with
  | late _ _ _ => exact (TransmitSink.asked_report p.sink _).toMoved

theorem Overdue.limit_eq (h : Overdue limit p time q) : limit = some time := by
  cases h with
  | late _ hlimit _ => exact hlimit

/-- Others queue nothing. -/
theorem Flushing.of_no_slot (h : Flushing limit p) (hm : Moved p.sink q.sink)
    (hnone : slots events = []) : Flushing limit q ∧
    q.sink.feed.queuedSlots = p.sink.feed.queuedSlots ++ slots events := by
  refine ⟨h.moved hm, ?_⟩
  rw [hm.queuedSlots_eq h.sound.ring, hnone, List.append_nil]

variable [TransferEngine E]

/-! ## The flush -/

namespace FlushRun

variable (hrun : FlushRun limit left p events flushed t)
include hrun

/-- The engine is not ended in a flush. -/
theorem not_ended (answer : Except String Unit) : .ended answer ∉ events := by
  induction hrun with
  | push _ _ _ ih => simpa [List.mem_replicate] using ih
  | abandoned _ _ _ => simp [List.mem_replicate]
  | late _ _ _ _ => simp [List.mem_replicate]
  | dry _ _ => simp [List.mem_replicate]
  | overdue _ _ _ => simp [List.mem_replicate]

/-- The flush looks for room only while there are slots to queue. -/
theorem looksWithin : LooksWithin left events := by
  induction hrun with
  | push _ _ _ ih => exact ih.push _
  | abandoned _ _ _ =>
      exact StopEvent.looksWithin_of_no_slot (StopEvent.slots_behind _ rfl _)
  | late _ _ _ _ =>
      exact StopEvent.looksWithin_of_no_slot (StopEvent.slots_behind _ rfl _)
  | dry _ _ => exact StopEvent.looksWithin_of_no_look fun _ => by simp [List.mem_replicate]
  | overdue _ _ _ => exact StopEvent.looksWithin_of_no_look fun _ => by simp [List.mem_replicate]

/-- The first failure ends the flush, and is what it reports. -/
theorem verdict : FlushVerdict limit events flushed := by
  induction hrun with
  | push _ _ _ ih => exact ih.congr (by simp [List.mem_replicate]) (by simp [List.mem_replicate])
  | abandoned _ _ _ => exact .abandoned (by simp) (by simp [List.mem_replicate])
  | late _ _ _ hlate => exact .late hlate.limit_eq (by simp [List.mem_replicate]) (by simp)
  | dry _ _ => exact .well (by simp [List.mem_replicate]) (by simp [List.mem_replicate])
  | overdue _ _ hlate => exact .late hlate.limit_eq (by simp [List.mem_replicate]) (by simp)

/-- The journal says what a flush has queued. -/
theorem after (h : Flushing limit p) : Flushing limit t ∧
    t.sink.feed.queuedSlots = p.sink.feed.queuedSlots ++ slots events := by
  induction hrun with
  | @push left count p q t events flushed hturns hroom _ ih =>
      have hq := h.fullTurns hturns
      have hmoved := (hturns.moved watches_room h.sound.ring).queuedSlots_eq h.sound.ring
      obtain ⟨hflushing, hqueued⟩ := ih (hq.queueNext hroom)
      refine ⟨hflushing, ?_⟩
      rw [hqueued, TransmitSink.queuedSlots_queueNext hq.sound hroom, hmoved,
        StopEvent.slots_behind count rfl, List.append_assoc]
      rfl
  | abandoned hturns _ hended =>
      have hmoved := (hturns.moved watches_room h.sound.ring).trans hended.moved
      exact h.of_no_slot hmoved (StopEvent.slots_behind _ rfl _)
  | late hturns _ hstreams hlate =>
      have hmoved := (hturns.moved watches_room h.sound.ring).trans hstreams.moved
      exact h.of_no_slot (hmoved.trans hlate.moved) (StopEvent.slots_behind _ rfl _)
  | dry hturns hended =>
      have hmoved := (hturns.moved watches_end h.marked.sound.ring).trans hended.moved
      exact h.marked.of_no_slot hmoved (StopEvent.slots_behind _ rfl _)
  | overdue hturns hstreams hlate =>
      have hmoved := (hturns.moved watches_end h.marked.sound.ring).trans hstreams.moved
      exact h.marked.of_no_slot (hmoved.trans hlate.moved) (StopEvent.slots_behind _ rfl _)

end FlushRun

end Call

open StopEvent (slots LooksWithin)
open Call (StopRun attempt stopAt)
open TransmitSink (closed_phase closed_queuedSlots)

variable [TransferEngine E] {s t sink : TransmitSink E} {now : Instant}

/-! ## The stop -/

/-- What a stop of a sink that streams comes to, by the events before the engine was ended. -/
structure StopOutcome (s : TransmitSink E) (flush : List StopEvent)
    (answer : Except String Unit) (result : Except SinkError Unit) (t : TransmitSink E) :
    Prop where
  engineStopped_iff : result = .error .engineStopped ↔ .full false ∈ flush
  stopTimeout_iff : ∀ time, result = .error (.stopTimeout time) ↔
    .full false ∉ flush ∧ .late ∈ flush ∧ s.config.stopTimeout = some time
  hardwareStop_iff : ∀ problem, result = .error (.hardwareStop problem) ↔
    .full false ∉ flush ∧ .late ∉ flush ∧ answer = .error problem
  ok_iff : result = .ok () ↔ .full false ∉ flush ∧ .late ∉ flush ∧ answer = .ok ()
  limited : .late ∈ flush → s.config.stopTimeout.isSome = true
  looksWithin : LooksWithin (SinkConfig.trailingSilence + 1) flush
  ended_once : ∀ other, .ended other ∉ flush
  queuedSlots_eq : t.feed.queuedSlots = s.feed.queuedSlots ++ slots flush
  phase_eq : t.phase = .stopped
  again : ∀ later pauses gaps,
    attempt (stopAt later) ⟨t, pauses, gaps⟩ = .ok (.ok ()) ⟨t, pauses, gaps⟩

/-- The answer of the engine shows only behind a flush without a failure. -/
theorem FlushVerdict.report (h : FlushVerdict limit flush flushed)
    (hresult : result = (flushed >>= fun _ => stopResult answer)) :
    (result = .error .engineStopped ↔ .full false ∈ flush) ∧
      (∀ time, result = .error (.stopTimeout time) ↔
        .full false ∉ flush ∧ .late ∈ flush ∧ limit = some time) ∧
      (∀ problem, result = .error (.hardwareStop problem) ↔
        .full false ∉ flush ∧ .late ∉ flush ∧ answer = .error problem) ∧
      (result = .ok () ↔ .full false ∉ flush ∧ .late ∉ flush ∧ answer = .ok ()) ∧
      (.late ∈ flush → limit.isSome = true) := by
  subst hresult
  cases h with
  | abandoned hends hnot => simp [hends, hnot, bind, Except.bind]
  | late hlimit hnot hover => simp [hlimit, hnot, hover, bind, Except.bind]
  | well hnot hnot' => cases answer <;> simp [hnot, hnot', stopResult, bind, Except.bind]

/-- The rules of a stop lead from a sink that streams to such an outcome. -/
theorem Call.StopRun.outcome {p q : Progress E} (hrun : StopRun now p events result q)
    (h : p.sink.Invariant) (hphase : p.sink.phase = .streaming) :
    ∃ flush answer, events = flush ++ [.ended answer] ∧
      StopOutcome p.sink flush answer result q.sink := by
  cases hrun with
  | absent hnone =>
      have hbound := h.bound_of_streaming hphase
      rw [hnone] at hbound
      cases hbound
  | settled _ hsettled => exact absurd hphase hsettled
  | @streaming _ flush flushed g r engine after answer feed hbound _ _ hflush hgap hengine hstop =>
      obtain ⟨hflushing, hqueued⟩ := hflush.after ⟨h.toSound.withPhase .stopping, hbound, rfl⟩
      have hring := hflushing.sound.ring
      have hgapped := (Call.gap_ends hring).ok hgap
      obtain ⟨_, _, _, hended, hdrained⟩ :=
        (TransferEngine.stop engine).run_drained (hgapped.drained.sound hring)
      rw [hstop] at hended
      cases hended
      have hmoved : Moved g.sink { r.sink with engine := some after, feed } :=
        hgapped.trans ⟨hdrained, rfl, by rw [hengine]; rfl⟩
      obtain ⟨hends, hlate, hproblem, hok, hlimit⟩ :=
        hflush.verdict.report (rfl : (flushed >>= fun _ => stopResult answer) = _)
      refine ⟨flush, answer, rfl, hends, hlate, hproblem, hok, hlimit, hflush.looksWithin,
        hflush.not_ended, ?_, closed_phase _ answer, fun _ _ _ => ?_⟩
      · rw [closed_queuedSlots, hmoved.queuedSlots_eq hring]
        exact hqueued
      · exact Call.attempt_stop_of_settled (by simp) (by simp)

/-- Without an engine, or if it does not stream, a sink is left as it is by a stop. If it streams,
the first failure decides what the stop reports: a look for room that finds the ring full and the
engine at its end, or a wait at or after the limit. After neither it is the answer of the engine,
which is ended once, when nothing is queued any more. A stop that does not return is left waiting,
or the clock never comes to its deadline. -/
theorem TransmitSink.stop_outcome (hr : Reachable sink) (now : Instant) (pauses : List Pause)
    (gaps : List (List Move)) :
    (sink.engine = none → attempt (stopAt now) ⟨sink, pauses, gaps⟩ =
        .ok (.error .noDevice) ⟨sink, pauses, gaps⟩) ∧
      (sink.engine.isSome = true → sink.phase ≠ .streaming →
        attempt (stopAt now) ⟨sink, pauses, gaps⟩ = .ok (.ok ()) ⟨sink, pauses, gaps⟩) ∧
      (∀ result q, attempt (stopAt now) ⟨sink, pauses, gaps⟩ = .ok result q ↔
        ∃ events, StopRun now ⟨sink, pauses, gaps⟩ events result q) ∧
      (∀ halt q, attempt (stopAt now) ⟨sink, pauses, gaps⟩ = .error halt q →
        halt = .waiting ∨ halt = .fault .timeRange ∧ sink.phase = .streaming ∧
          sink.config.deadline now = .error .timeRange) ∧
      ∀ events result q, StopRun now ⟨sink, pauses, gaps⟩ events result q →
        (sink.phase ≠ .streaming → events = []) ∧
        (sink.phase = .streaming → ∃ flush answer, events = flush ++ [.ended answer] ∧
          StopOutcome sink flush answer result q.sink) := by
  have h := hr.invariant
  have hends := Call.stop_run (p := ⟨sink, pauses, gaps⟩) now h
  refine ⟨fun hnone => Call.attempt_stop_of_absent hnone,
    fun hbound hphase => Call.attempt_stop_of_settled hbound hphase, fun result q => ⟨?_, ?_⟩,
    fun halt q he => hends.error he, fun events result q hrun => ⟨?_, ?_⟩⟩
  · exact fun he => hends.ok he
  · exact fun ⟨events, hrun⟩ => hrun.execution h.toSound
  · intro hphase
    cases hrun with
    | absent _ => rfl
    | settled _ _ => rfl
    | streaming _ hstreams _ _ _ _ _ => exact absurd hstreams hphase
  · exact fun hphase => hrun.outcome h hphase

/-- The ring has room for one slot, the engine ends at the first look and is not ended without an
error: the look is what the stop reports. -/
theorem TransmitSink.stop_outcome_at_full_ring :
    ∃ (s : TransmitSink Steered) (q : Progress Steered) (flush : List StopEvent)
      (answer : Except String Unit),
      Reachable s ∧ s.phase = .streaming ∧
        attempt (stopAt ⟨0⟩) ⟨s, [], []⟩ = .ok (.error .engineStopped) q ∧
        q.sink.feed.journal.head? = some (.reported (.stopFailed "stalled")) ∧
        .full false ∈ flush ∧ StopOutcome s flush answer (.error .engineStopped) q.sink := by
  have hmade := Reachable.make (rfl : make { bufferCount := 1, slotSize := 2 }
    (some ({ transferSize := 2, stopError := some "stalled", endsAt := 1 } : Steered)) = .ok _)
  obtain ⟨s, q, hr, hphase, hstop, hjournal⟩ : ∃ (s : TransmitSink Steered)
      (q : Progress Steered), Reachable s ∧ s.phase = .streaming ∧
        attempt (stopAt ⟨0⟩) ⟨s, [], []⟩ = .ok (.error .engineStopped) q ∧
        q.sink.feed.journal.head? = some (.reported (.stopFailed "stalled")) :=
    ⟨_, _, hmade.start, rfl, rfl, rfl⟩
  obtain ⟨_, _, hruns, _, houtcome⟩ := stop_outcome hr ⟨0⟩ [] []
  obtain ⟨events, hrun⟩ := (hruns _ q).mp hstop
  obtain ⟨flush, answer, _, hflush⟩ := (houtcome events _ q hrun).2 hphase
  exact ⟨s, q, flush, answer, hr, hphase, hstop, hjournal, hflush.engineStopped_iff.mp rfl, hflush⟩

end IqTransmit
