import IqTransmit.Proofs.Sink.Delivery
import IqTransmit.Proofs.Sink.Room
import IqTransmit.Proofs.Sink.Waits

/-!
The course of a stop, with all that it does and learns on its way: each question to the engine, each
slot that it queues, a wait that comes too late, and the end of the engine. The rules say what can
follow what; a stop returns just if they lead from where it begins to where it ends.
-/

namespace IqTransmit

variable {E : Type}

/-- What happens in a stop: a look for room at a full ring, with the answer of the engine whether it
streams; a wait that was to begin after the limit; a slot queued; with all slots queued, a question
whether the engine streams; and the end of the engine, with its answer. -/
inductive StopEvent where
  | full (streams : Bool)
  | late
  | queued (slot : Slot)
  | asked (streams : Bool)
  | ended (answer : Except String Unit)
  deriving DecidableEq

namespace TransmitSink

/-- The sink after its scratch slot, padded with silence, was queued; from then on it queues slots
of silence. -/
def queueNext (s : TransmitSink E) : TransmitSink E :=
  { s.emptied with feed := s.feed.enqueue s.flushSlot }

/-- The sink once the stream is marked as stopping. -/
def marked (s : TransmitSink E) : TransmitSink E := { s with feed.stopping := true }

/-- The sink after its engine was ended, with what that reports. -/
def closed (s : TransmitSink E) (answer : Except String Unit) : TransmitSink E :=
  let stats := s.feed.stats
  let sink := { s with phase := .stopped }.report
    (.streamingStopped stats.drained stats.underruns stats.deferred)
  match answer with
  | .error problem => sink.report (.stopFailed problem)
  | .ok () => sink

section

variable {s t : TransmitSink E}

@[simp] theorem closed_phase (s : TransmitSink E) (answer : Except String Unit) :
    (s.closed answer).phase = .stopped := by
  cases answer <;> rfl

@[simp] theorem closed_engine (s : TransmitSink E) (answer : Except String Unit) :
    (s.closed answer).engine = s.engine := by
  cases answer <;> rfl

@[simp] theorem closed_queuedSlots (s : TransmitSink E) (answer : Except String Unit) :
    (s.closed answer).feed.queuedSlots = s.feed.queuedSlots := by
  cases answer <;> simp [closed, report, Feed.report, Feed.note_queuedSlots, Event.queuedSlot?]

theorem Sound.queueNext (hs : s.Sound) (hroom : s.feed.ring.hasRoom = true) : s.queueNext.Sound :=
  hs.emptied.of_ring (hs.ring.enqueue hroom) rfl rfl rfl

theorem emptied_queueNext (s : TransmitSink E) : s.queueNext.emptied = s.queueNext := by
  simp [queueNext, emptied, silentSlot]

/-- If the scratch slot is silent, it is queued as it is. -/
theorem queueNext_of_silent (h : s.emptied = s) :
    s.queueNext = { s with feed := s.feed.enqueue s.scratch } := by
  have hscratch : s.silentSlot = s.scratch := congrArg scratch h
  have hoffset : 0 = s.fillOffset := congrArg fillOffset h
  have hslot : s.flushSlot = s.scratch := by
    rw [flushSlot, pending, ← hoffset]
    exact hscratch
  rw [queueNext, h, hslot]

theorem Moved.emptied_eq (hm : Moved s t) (h : s.emptied = s) : t.emptied = t := by
  have hscratch : s.silentSlot = s.scratch := congrArg scratch h
  have hoffset : 0 = s.fillOffset := congrArg fillOffset h
  rw [TransmitSink.emptied, hm.silentSlot_eq, hscratch, hoffset, ← hm.scratch_eq,
    ← hm.fillOffset_eq]

end

end TransmitSink

open TransmitSink (Moved Asked queueNext)

namespace Call

variable {α β : Type}

theorem hasRoom_eq_ok {p q : Progress E} {room : Bool} (he : hasRoom p = .ok room q) :
    p.sink.feed.ring.hasRoom = room ∧ p = q := by
  cases he
  exact ⟨rfl, rfl⟩

theorem keepsPauses_hasRoom : KeepsPauses (E := E) hasRoom := by
  rintro p _ _ ⟨⟩
  rfl

theorem keepsPauses_pure : KeepsPauses (E := E) (pure ()) := by
  rintro p _ _ ⟨⟩
  rfl

theorem attempt_bind_of_ok {call : Call E α} {f : α → Call E β} {a : α} {p q : Progress E}
    (he : call p = .ok a q) : attempt (call >>= f) p = attempt (f a) q := by
  simp only [attempt, bind_of_ok he]

theorem attempt_bind_of_failed {call : Call E α} {f : α → Call E β}
    {error : SinkError} {p q : Progress E} (he : call p = .error (.failed error) q) :
    attempt (call >>= f) p = .ok (.error error) q := by
  simp only [attempt, bind_of_error he]

/-- Two calls in a row, of which the first is done or the attempt is over with it. -/
theorem Ends.attempt_seq {call : Call E α} {f : α → Call E β} {p : Progress E}
    {done : α → Progress E → Prop} {next : Except SinkError β → Progress E → Prop}
    {gave halted : Halt → Progress E → Prop} (h : Ends call p done gave)
    (hdone : ∀ a q, done a q → Ends (Call.attempt (f a)) q next halted)
    (hgave : ∀ halt q, gave halt q → Attempted next halted halt q) :
    Ends (Call.attempt (call >>= f)) p next halted := by
  cases he : call p with
  | ok a q =>
      simp only [Ends, attempt_bind_of_ok he]
      exact hdone a q (h.ok he)
  | error halt q => exact .attempt (.of_error (bind_of_error he) (hgave halt q (h.error he)))

/-- What the rules of a flush need of a state. -/
structure Flushing (limit : Option Duration) (p : Progress E) : Prop where
  sound : p.sink.Sound
  bound : p.sink.engine.isSome = true
  limit_eq : p.sink.config.stopTimeout = limit

namespace Flushing

variable {limit : Option Duration} {p q : Progress E} (h : Flushing limit p)
include h

theorem moved (hm : Moved p.sink q.sink) : Flushing limit q := by
  refine ⟨hm.sound h.sound, hm.bound.trans h.bound, ?_⟩
  rw [hm.config_eq]
  exact h.limit_eq

theorem queueNext (hroom : p.sink.feed.ring.hasRoom = true) :
    Flushing limit { p with sink := p.sink.queueNext } :=
  ⟨h.sound.queueNext hroom, h.bound, h.limit_eq⟩

theorem marked : Flushing limit { p with sink := p.sink.marked } :=
  ⟨h.sound.of_ring h.sound.ring rfl rfl rfl, h.bound, h.limit_eq⟩

end Flushing

variable [TransferEngine E] {limit : Option Duration} {left count : Nat} {p q r t : Progress E}
variable {flushed result : Except SinkError Unit} {answer : Except String Unit}
variable {events : List StopEvent} {streams : Bool} {now : Instant}

/-! ## Rules -/

/-- The engine is asked whether it streams. -/
inductive Polled (p : Progress E) : Bool → Progress E → Prop where
  | poll {engine after : E} {streams : Bool} : p.sink.engine = some engine →
      TransferEngine.poll engine = (streams, after) →
      Polled p streams { p with sink := { p.sink with engine := some after } }

/-- Gives up unless the engine streams. -/
def lookToStop : Call E Unit := do
  unless ← askEngine do fail .engineStopped

/-- Whether the engine streams no more. -/
def askEnded : Call E Bool := do
  return !(← askEngine)

/-- A flush with so many slots still to be queued. The looks for room that find none while the
engine streams come before each of its rules, and so do, with no slot left, the questions that the
engine answers with yes. -/
inductive FlushRun (limit : Option Duration) :
    Nat → Progress E → List StopEvent → Except SinkError Unit → Progress E → Prop where
  | push {left count : Nat} {p q t : Progress E} {events : List StopEvent}
      {flushed : Except SinkError Unit} :
      Turns hasRoom lookToStop limit p count q → q.sink.feed.ring.hasRoom = true →
      FlushRun limit left { q with sink := q.sink.queueNext } events flushed t →
      FlushRun limit (left + 1) p
        (List.replicate count (.full true) ++ .queued q.sink.flushSlot :: events) flushed t
  | abandoned {left count : Nat} {p q t : Progress E} :
      Turns hasRoom lookToStop limit p count q → q.sink.feed.ring.hasRoom = false →
      Polled q false t →
      FlushRun limit (left + 1) p (List.replicate count (.full true) ++ [.full false])
        (.error .engineStopped) t
  | late {left count : Nat} {p q r t : Progress E} {time : Duration} :
      Turns hasRoom lookToStop limit p count q → q.sink.feed.ring.hasRoom = false →
      Polled q true r → Overdue limit r time t →
      FlushRun limit (left + 1) p (List.replicate count (.full true) ++ [.full true, .late])
        (.error (.stopTimeout time)) t
  | dry {count : Nat} {p q t : Progress E} :
      Turns askEnded (pure ()) limit { p with sink := p.sink.marked } count q → Polled q false t →
      FlushRun limit 0 p (List.replicate count (.asked true) ++ [.asked false]) (.ok ()) t
  | overdue {count : Nat} {p q r t : Progress E} {time : Duration} :
      Turns askEnded (pure ()) limit { p with sink := p.sink.marked } count q → Polled q true r →
      Overdue limit r time t →
      FlushRun limit 0 p (List.replicate count (.asked true) ++ [.asked true, .late])
        (.error (.stopTimeout time)) t

/-- A stop with the clock at `now`, and all that happens in it. One that finds no engine, or a sink
that does not stream, does nothing. -/
inductive StopRun (now : Instant) (p : Progress E) :
    List StopEvent → Except SinkError Unit → Progress E → Prop where
  | absent : p.sink.engine = none → StopRun now p [] (.error .noDevice) p
  | settled : p.sink.engine.isSome = true → p.sink.phase ≠ .streaming →
      StopRun now p [] (.ok ()) p
  | streaming {deadline : Option Instant} {events : List StopEvent}
      {flushed : Except SinkError Unit} {q r : Progress E}
      {engine after : E} {answer : Except String Unit} {feed : Feed} :
      p.sink.engine.isSome = true → p.sink.phase = .streaming →
      p.sink.config.deadline now = .ok deadline →
      FlushRun p.sink.config.stopTimeout (SinkConfig.trailingSilence + 1)
        { p with sink := { p.sink with phase := .stopping } } events flushed q →
      gap q = .ok () r → r.sink.engine = some engine →
      (TransferEngine.stop engine).run Feed.pull r.sink.feed = .ok (answer, after) feed →
      StopRun now p (events ++ [.ended answer]) (flushed >>= fun _ => stopResult answer)
        { r with sink := { r.sink with engine := some after, feed }.closed answer }

/-! ## Questions to the engine -/

theorem askEngine_of_polled (h : Polled p streams q) : askEngine p = .ok streams q := by
  cases h with
  | poll hengine hpoll => simp only [askEngine, hengine, hpoll]

theorem askEngine_polled (hbound : p.sink.engine.isSome = true) :
    Ends askEngine p (fun streams q => Polled p streams q) never := by
  obtain ⟨engine, hengine⟩ := Option.isSome_iff_exists.mp hbound
  simp only [Ends, askEngine, hengine]
  exact .poll hengine rfl

theorem lookToStop_of_streams (h : Polled p true q) : lookToStop p = .ok () q := by
  rw [lookToStop, bind_of_ok (askEngine_of_polled h)]
  rfl

theorem lookToStop_of_ended (h : Polled p false q) :
    lookToStop p = .error (.failed .engineStopped) q := by
  rw [lookToStop, bind_of_ok (askEngine_of_polled h)]
  rfl

theorem lookToStop_polled (hbound : p.sink.engine.isSome = true) :
    Ends lookToStop p (fun _ q => Polled p true q)
      (fun halt q => halt = .failed .engineStopped ∧ Polled p false q) := by
  refine (askEngine_polled hbound).seq_never ?_
  intro streams q hq
  cases streams with
  | true => exact hq
  | false => exact ⟨rfl, hq⟩

theorem askEnded_of_polled (h : Polled p streams q) : askEnded p = .ok (!streams) q := by
  rw [askEnded, bind_of_ok (askEngine_of_polled h)]
  rfl

theorem askEnded_polled (hbound : p.sink.engine.isSome = true) :
    Ends askEnded p (fun ended q => Polled p (!ended) q) never := by
  refine (askEngine_polled hbound).seq_never ?_
  intro streams q hq
  cases streams with
  | true => exact hq
  | false => exact hq

theorem watches_room : Watches (E := E) hasRoom lookToStop (fun b ring => ring.hasRoom = b)
    (fun halt _ => halt = .failed .engineStopped) :=
  ⟨fun p => .of_ok rfl ⟨.refl p.sink, rfl⟩, lookToStop_ends⟩

theorem watches_end : Watches (E := E) askEnded (pure ()) (fun _ _ => True) (fun _ _ => False) := by
  refine ⟨fun p => ?_, fun p => Asked.refl p.sink⟩
  refine (askEngine_ends p).seq_never ?_
  exact fun _ q hq => ⟨hq, trivial⟩

theorem keepsPauses_askEngine : KeepsPauses (E := E) askEngine := by
  intro p streams q he
  simp only [askEngine] at he
  cases hengine : p.sink.engine with
  | none =>
      rw [hengine] at he
      cases he
      rfl
  | some engine =>
      rw [hengine] at he
      cases he
      rfl

theorem keepsPauses_lookToStop : KeepsPauses (E := E) lookToStop := by
  intro p _ q he
  obtain ⟨streams, r, hask, he⟩ := bind_eq_ok he
  have hr := keepsPauses_askEngine _ _ _ hask
  cases streams with
  | true =>
      cases he
      exact hr
  | false => cases he

theorem keepsPauses_askEnded : KeepsPauses (E := E) askEnded := by
  intro p _ q he
  obtain ⟨streams, r, hask, he⟩ := bind_eq_ok he
  cases he
  exact keepsPauses_askEngine _ _ _ hask

theorem Polled.moved (h : Polled p streams q) : Moved p.sink q.sink := by
  cases h with
  | poll hengine _ => exact ⟨.refl, rfl, by simp [hengine]⟩

/-! ## The flush slot by slot -/

/-- A flush from where so many slots are still to be queued. -/
def flushFrom : Nat → Call E Unit
  | 0 => endStream
  | left + 1 => do
      awaitRoomToStop
      update queueNext
      flushFrom left

/-- Behind the flush slot the scratch slot is silent, so that its copies are what is queued. -/
theorem pushSilence_eq (hp : p.sink.Sound) (hsilent : p.sink.emptied = p.sink) :
    (do pushSilence left; endStream : Call E Unit) p = flushFrom left p := by
  induction left generalizing p with
  | zero => rfl
  | succ left ih =>
      simp only [pushSilence, bind_assoc, flushFrom]
      refine (awaitRoomToStop_ends hp.ring).bind_congr ?_
      rintro _ q ⟨hq, hroom⟩
      have hs := hq.sound hp
      have hsame := hq.emptied_eq hsilent
      have hlen := hs.scratch_length
      rw [bind_of_ok (pushScratch_of_room hs.ring hroom hlen), bind_of_ok (update_eq _ q),
        TransmitSink.queueNext_of_silent hsame]
      refine ih (p := { q with sink := { q.sink with feed := _ } }) ?_ ?_
      · rw [← TransmitSink.queueNext_of_silent hsame]
        exact hs.queueNext hroom
      · rw [← TransmitSink.queueNext_of_silent hsame]
        exact q.sink.emptied_queueNext

theorem flush_eq_flushFrom (hp : p.sink.Sound) :
    flush p = flushFrom (SinkConfig.trailingSilence + 1) p := by
  rw [flush_eq, queueTail]
  simp only [bind_assoc, flushFrom]
  refine (awaitRoomToStop_ends hp.ring).bind_congr ?_
  rintro _ q ⟨hq, hroom⟩
  have hs := hq.sound hp
  have hlen : q.sink.flushSlot.length = q.sink.scratch.length :=
    hs.flushSlot_length.trans hs.scratch_length.symm
  have hpush := pushScratch_of_room
    (p := { q with sink := { q.sink with scratch := q.sink.flushSlot } }) hs.ring hroom
    hs.flushSlot_length
  rw [bind_of_ok (padScratch_of_sound hs), bind_of_ok hpush, bind_of_ok (update_eq _ _),
    bind_of_ok (update_eq _ q)]
  simp only [hlen]
  exact pushSilence_eq (p := { q with sink := q.sink.queueNext }) (hs.queueNext hroom)
    q.sink.emptied_queueNext

/-- With a deadline this is the flush of a stop. -/
theorem flushAndWait_eq_flushFrom {deadline : Option Instant} (hp : p.sink.Sound)
    (hdeadline : p.sink.config.deadline now = .ok deadline) :
    flushAndWait now p = flushFrom (SinkConfig.trailingSilence + 1) p :=
  (flushAndWait_of_deadline hdeadline).trans (flush_eq_flushFrom hp)

/-! ## Rules and calls -/

theorem awaitRoomToStop_eq (h : p.sink.config.stopTimeout = limit) :
    awaitRoomToStop p = waitUntil hasRoom lookToStop limit p := by
  subst h
  rfl

theorem awaitEnd_eq (h : p.sink.config.stopTimeout = limit) :
    awaitEnd p = waitUntil askEnded (pure ()) limit p := by
  subst h
  rfl

namespace Flushing

variable (h : Flushing limit p)
include h

theorem fullTurns (hturns : Turns hasRoom lookToStop limit p count q) : Flushing limit q :=
  h.moved (hturns.moved watches_room h.sound.ring)

theorem busyTurns (hturns : Turns askEnded (pure ()) limit p count q) : Flushing limit q :=
  h.moved (hturns.moved watches_end h.sound.ring)

/-- What the rules lead to is what the calls do. -/
theorem execution (hrun : FlushRun limit left p events flushed t) :
    attempt (flushFrom left) p = .ok flushed t := by
  induction hrun with
  | @push left count p q t events flushed hturns hroom _ ih =>
      have hwait : awaitRoomToStop p = .ok () q := by
        rw [awaitRoomToStop_eq h.limit_eq,
          hturns.waitUntil_eq keepsPauses_hasRoom keepsPauses_lookToStop]
        exact waitUntil_of_yes (by rw [hasRoom, hroom])
      rw [flushFrom, attempt_bind_of_ok hwait, attempt_bind_of_ok (update_eq _ q)]
      exact ih ((h.fullTurns hturns).queueNext hroom)
  | @abandoned left count p q t hturns hfull hended =>
      have hwait : awaitRoomToStop p = .error (.failed .engineStopped) t := by
        rw [awaitRoomToStop_eq h.limit_eq,
          hturns.waitUntil_eq keepsPauses_hasRoom keepsPauses_lookToStop]
        exact waitUntil_of_gaveUp (by rw [hasRoom, hfull]) (lookToStop_of_ended hended)
      rw [flushFrom, attempt_bind_of_failed hwait]
  | @late left count p q r t time hturns hfull hstreams hlate =>
      have hwait : awaitRoomToStop p = .error (.failed (.stopTimeout time)) t := by
        rw [awaitRoomToStop_eq h.limit_eq,
          hturns.waitUntil_eq keepsPauses_hasRoom keepsPauses_lookToStop]
        exact waitUntil_of_overdue keepsPauses_hasRoom keepsPauses_lookToStop
          (by rw [hasRoom, hfull]) (lookToStop_of_streams hstreams) hlate
      rw [flushFrom, attempt_bind_of_failed hwait]
  | @dry count p q t hturns hended =>
      have hwait : awaitEnd { p with sink := p.sink.marked } = .ok () t := by
        rw [awaitEnd_eq h.marked.limit_eq,
          hturns.waitUntil_eq keepsPauses_askEnded keepsPauses_pure]
        exact waitUntil_of_yes (askEnded_of_polled hended)
      have hstream : flushFrom 0 p = .ok () t := hwait
      rw [attempt, hstream]
  | @overdue count p q r t time hturns hstreams hlate =>
      have hwait : awaitEnd { p with sink := p.sink.marked } =
          .error (.failed (.stopTimeout time)) t := by
        rw [awaitEnd_eq h.marked.limit_eq,
          hturns.waitUntil_eq keepsPauses_askEnded keepsPauses_pure]
        exact waitUntil_of_overdue keepsPauses_askEnded keepsPauses_pure
          (askEnded_of_polled hstreams) rfl hlate
      have hstream : flushFrom 0 p = .error (.failed (.stopTimeout time)) t := hwait
      rw [attempt, hstream]

/-- What the calls do is what the rules lead to, unless they wait for good. -/
theorem run_of_flushFrom : Ends (attempt (flushFrom left)) p
    (fun flushed t => ∃ events, FlushRun limit left p events flushed t)
    (fun halt _ => halt = .waiting) := by
  induction left generalizing p with
  | zero =>
      have hmarked := h.marked
      have hwait := Ends.congr (waitUntil_turns keepsPauses_askEnded keepsPauses_pure watches_end
        hmarked.sound.ring) (awaitEnd_eq hmarked.limit_eq)
      refine .attempt (.step (update_eq TransmitSink.marked p) (hwait.imp ?_ ?_))
      · rintro _ t ⟨count, q, hturns, hyes⟩
        exact ⟨_, .dry hturns ((askEnded_polled (hmarked.busyTurns hturns).bound).ok hyes)⟩
      · rintro halt t (rfl | ⟨count, q, r, hturns, hno, hlook | ⟨s, time, hlook, rfl, hlate⟩⟩)
        · rfl
        · cases hlook
        · cases hlook
          have hstreams := (askEnded_polled (hmarked.busyTurns hturns).bound).ok hno
          exact ⟨_, .overdue hturns hstreams hlate⟩
  | succ left ih =>
      have hwait := Ends.congr (waitUntil_turns keepsPauses_hasRoom keepsPauses_lookToStop
        watches_room h.sound.ring) (awaitRoomToStop_eq h.limit_eq)
      refine hwait.attempt_seq ?_ ?_
      · rintro _ q ⟨count, r, hturns, hyes⟩
        obtain ⟨hroom, rfl⟩ := hasRoom_eq_ok hyes
        simp only [Ends, attempt_bind_of_ok (update_eq _ _)]
        refine (ih ((h.fullTurns hturns).queueNext hroom)).imp ?_ fun _ _ hwaits => hwaits
        intro flushed t hrest
        obtain ⟨events, hrest⟩ := hrest
        exact ⟨_, .push hturns hroom hrest⟩
      · rintro halt t (rfl | ⟨count, q, r, hturns, hno, hlook | ⟨s, time, hlook, rfl, hlate⟩⟩)
        · rfl
        · obtain ⟨hfull, rfl⟩ := hasRoom_eq_ok hno
          obtain ⟨rfl, hended⟩ := (lookToStop_polled (h.fullTurns hturns).bound).error hlook
          exact ⟨_, .abandoned hturns hfull hended⟩
        · obtain ⟨hfull, rfl⟩ := hasRoom_eq_ok hno
          have hstreams := (lookToStop_polled (h.fullTurns hturns).bound).ok hlook
          exact ⟨_, .late hturns hfull hstreams hlate⟩

end Flushing

/-! ## The stop -/

/-- The engine is ended in one go, whatever became of the flush. -/
theorem attempt_stopEngine {engine after : E} {feed : Feed} (flushed : Except SinkError Unit)
    (hgap : gap q = .ok () r) (hengine : r.sink.engine = some engine)
    (hstop : (TransferEngine.stop engine).run Feed.pull r.sink.feed = .ok (answer, after) feed) :
    attempt (stopEngine flushed) q = .ok (flushed >>= fun _ => stopResult answer)
      { r with sink := { r.sink with engine := some after, feed }.closed answer } := by
  have hact : act TransferEngine.stop (.ok ()) r =
      .ok answer { r with sink := { r.sink with engine := some after, feed } } := by
    simp only [act, hengine, hstop]
  simp only [stopEngine]
  rw [attempt_bind_of_ok hgap, attempt_bind_of_ok hact]
  cases answer <;> cases flushed <;> rfl

/-- Nothing keeps a bound engine from being ended. -/
theorem stopEngine_steps (hring : q.sink.feed.ring.Sound) (hbound : q.sink.engine.isSome = true) :
    ∃ r engine answer after feed, gap q = .ok () r ∧ r.sink.engine = some engine ∧
      (TransferEngine.stop engine).run Feed.pull r.sink.feed = .ok (answer, after) feed := by
  have hends := gap_ends hring
  cases hgap : gap q with
  | error halt r => exact (hends.error hgap).elim
  | ok _ r =>
      have hmoved := hends.ok hgap
      obtain ⟨engine, hengine⟩ := Option.isSome_iff_exists.mp (hmoved.bound.trans hbound)
      obtain ⟨answer, after, feed, hstop, _⟩ :=
        (TransferEngine.stop engine).run_drained (hmoved.drained.sound hring)
      exact ⟨r, engine, answer, after, feed, rfl, hengine, hstop⟩

theorem attempt_stop_of_absent (hnone : p.sink.engine = none) :
    attempt (stopAt now) p = .ok (.error .noDevice) p := by
  simp only [attempt, stopAt]
  rw [bind_of_ok (sink_eq p), hnone]
  rfl

theorem attempt_stop_of_settled (hbound : p.sink.engine.isSome = true)
    (hphase : p.sink.phase ≠ .streaming) : attempt (stopAt now) p = .ok (.ok ()) p := by
  obtain ⟨engine, hengine⟩ := Option.isSome_iff_exists.mp hbound
  simp only [attempt, stopAt]
  rw [bind_of_ok (sink_eq p), hengine]
  simp only
  rw [if_neg hphase]
  rfl

namespace StopRun

/-- What the rules lead to is what the call does. -/
theorem execution (h : StopRun now p events result q) (hp : p.sink.Sound) :
    attempt (stopAt now) p = .ok result q := by
  cases h with
  | absent hnone => exact attempt_stop_of_absent hnone
  | settled hbound hphase => exact attempt_stop_of_settled hbound hphase
  | streaming hbound hphase hdeadline hflush hgap hengine hstop =>
      have hflushing : Flushing p.sink.config.stopTimeout
          { p with sink := { p.sink with phase := .stopping } } :=
        ⟨hp.withPhase .stopping, hbound, rfl⟩
      have hflushed := hflushing.execution hflush
      have hsame := flushAndWait_eq_flushFrom hflushing.sound hdeadline
      rw [attempt, ← hsame] at hflushed
      rw [attempt_stop_of_flushed hphase hbound hflushed]
      exact attempt_stopEngine _ hgap hengine hstop

end StopRun

/-- What the call does is what the rules lead to, unless it does not return. -/
theorem stop_run (now : Instant) (h : p.sink.Invariant) : Ends (attempt (stopAt now)) p
    (fun result q => ∃ events, StopRun now p events result q)
    (fun halt _ => halt = .waiting ∨ halt = .fault .timeRange ∧ p.sink.phase = .streaming ∧
      p.sink.config.deadline now = .error .timeRange) := by
  cases hengine : p.sink.engine with
  | none =>
      have hrun : StopRun now p [] _ p := .absent hengine
      exact .of_ok (hrun.execution h.toSound) ⟨_, hrun⟩
  | some engine =>
      have hbound : p.sink.engine.isSome = true := by rw [hengine]; rfl
      by_cases hphase : p.sink.phase = .streaming
      · have hflushing : Flushing p.sink.config.stopTimeout
            { p with sink := { p.sink with phase := .stopping } } :=
          ⟨h.toSound.withPhase .stopping, hbound, rfl⟩
        rcases p.sink.config.deadline_cases now with ⟨deadline, hdeadline⟩ | hnever
        · have hsame := flushAndWait_eq_flushFrom hflushing.sound hdeadline
          have hends := hflushing.run_of_flushFrom.congr (attempt_congr hsame)
          cases hflush : attempt (flushAndWait now)
              { p with sink := { p.sink with phase := .stopping } } with
          | ok flushed g =>
              obtain ⟨events, hrules⟩ := hends.ok hflush
              obtain ⟨_, hend⟩ := (flushAndWait_ends now hflushing.sound).ok hflush
              obtain ⟨r, engine, answer, after, feed, hgap, hbound', hstop⟩ :=
                stopEngine_steps hend.accounted.sound.ring (hend.accounted.bound.trans hbound)
              have hended := attempt_stopEngine flushed hgap hbound' hstop
              exact .of_ok ((attempt_stop_of_flushed hphase hbound hflush).trans hended)
                ⟨_, .streaming hbound hphase hdeadline hrules hgap hbound' hstop⟩
          | error halt g =>
              obtain rfl := hends.error hflush
              have hwaits : attempt (stopAt now) p = .error .waiting g := by
                simp only [attempt, stop_of_streaming hphase hbound]
                rw [bind_of_error hflush]
              exact .of_error hwaits (.inl rfl)
        · exact .of_error ((stop_faults_iff h.toSound hphase hbound).mpr ⟨rfl, hnever, rfl⟩)
            (.inr ⟨rfl, hphase, hnever⟩)
      · have hrun : StopRun now p [] _ p := .settled hbound hphase
        exact .of_ok (hrun.execution h.toSound) ⟨_, hrun⟩

end Call

end IqTransmit
