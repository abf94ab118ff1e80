import IqTransmit.Proofs.Sink.Scratch
import IqTransmit.Sink.Stop

/-!
A stop of a streaming sink. Its flush queues six slots, one after a wait for room each: the pending
bytes padded with silence, and five slots of silence. What it has queued is always the first few of
these, and it gives up early only at a full ring. Without a deadline on the clock it never begins.
-/

namespace IqTransmit

variable {E : Type}

namespace TransmitSink

variable {s t u : TransmitSink E} {queued more : List Slot}

/-- A slot of silence of a sink. -/
def silentSlot (s : TransmitSink E) : Slot := List.replicate s.scratch.length 0

/-- The pending bytes of a sink, padded with silence. -/
def flushSlot (s : TransmitSink E) : Slot :=
  s.pending ++ List.replicate (s.scratch.length - s.fillOffset) 0

/-- What a stop is to queue. -/
def lastSlots (s : TransmitSink E) : List Slot :=
  s.flushSlot :: List.replicate SinkConfig.trailingSilence s.silentSlot

theorem Sound.silentSlot_length (h : s.Sound) : s.silentSlot.length = s.feed.ring.slotSize := by
  rw [silentSlot, List.length_replicate, h.scratch_length]

theorem Sound.flushSlot_length (h : s.Sound) : s.flushSlot.length = s.feed.ring.slotSize := by
  have hlt := h.fillOffset_lt
  have hlen := h.scratch_length
  rw [flushSlot, List.length_append, List.length_replicate, h.pending_length]
  omega

/-- A sink without pending bytes, its scratch slot silent. -/
def emptied (s : TransmitSink E) : TransmitSink E :=
  { s with scratch := s.silentSlot, fillOffset := 0 }

theorem Sound.emptied (h : s.Sound) : s.emptied.Sound :=
  ⟨h.ring, h.silentSlot_length, h.slotSize_even, Nat.dvd_zero 2, h.ring.slotSize_pos⟩

/-- The slots `queued` were pushed, and others have moved. -/
structure Fed (queued : List Slot) (s t : TransmitSink E) : Prop where
  flow : ∃ popped, s.feed.Flow t.feed queued popped
  stopping_eq : t.feed.stopping = s.feed.stopping
  frame : t = { s with engine := t.engine, feed := t.feed }
  bound : t.engine.isSome = s.engine.isSome

theorem Fed.trans (hst : Fed queued s t) (htu : Fed more t u) : Fed (queued ++ more) s u := by
  obtain ⟨popped, hflow⟩ := hst.flow
  obtain ⟨popped', hflow'⟩ := htu.flow
  refine ⟨⟨_, hflow.trans hflow'⟩, htu.stopping_eq.trans hst.stopping_eq, ?_,
    htu.bound.trans hst.bound⟩
  rw [htu.frame, hst.frame]

theorem Fed.sound (hf : Fed queued s t) (hs : s.Sound) : t.Sound := by
  obtain ⟨popped, hflow⟩ := hf.flow
  refine hs.of_ring hflow.sound hflow.slotSize_eq ?_ ?_
  · rw [hf.frame]
  · rw [hf.frame]

theorem Moved.fed (hm : Moved s t) (hs : s.feed.ring.Sound) : Fed [] s t := by
  obtain ⟨popped, hflow, hstop⟩ := hm.drained.flow hs
  exact ⟨⟨popped, hflow⟩, hstop, hm.frame, hm.bound⟩

theorem Moved.flushSlot_eq (hm : Moved s t) : t.flushSlot = s.flushSlot := by
  rw [flushSlot, hm.pending_eq, hm.scratch_eq, hm.fillOffset_eq, flushSlot]

theorem Moved.silentSlot_eq (hm : Moved s t) : t.silentSlot = s.silentSlot := by
  rw [silentSlot, hm.scratch_eq, silentSlot]

theorem Moved.emptied (hm : Moved s t) : Moved s.emptied t.emptied := by
  refine ⟨hm.drained, ?_, hm.bound⟩
  rw [TransmitSink.emptied, TransmitSink.emptied, hm.silentSlot_eq, hm.frame]

theorem Moved.withPhase (hm : Moved s t) (phase : Phase) :
    Moved { s with phase } { t with phase } := by
  refine ⟨hm.drained, ?_, hm.bound⟩
  rw [hm.frame]

theorem fed_enqueue {slot : Slot} (hs : s.feed.ring.Sound) (hroom : s.feed.ring.hasRoom = true)
    (hslot : slot.length = s.feed.ring.slotSize) :
    Fed [slot] s { s with feed := s.feed.enqueue slot } :=
  ⟨⟨[], Feed.flow_enqueue hs hroom hslot⟩, rfl, rfl, rfl⟩

/-- The account of a stop of `s` that has queued the slots `queued` so far: they are the first of
those that it is to queue, and the pending bytes are gone with the first of them. -/
structure Accounted (s : TransmitSink E) (queued : List Slot) (t : TransmitSink E) : Prop where
  sound : t.Sound
  flow : ∃ popped, s.feed.Flow t.feed queued popped
  sub : queued <+: s.lastSlots
  fillOffset_eq : t.fillOffset = 0 ↔ queued ≠ [] ∨ s.fillOffset = 0
  config_eq : t.config = s.config
  bound : t.engine.isSome = s.engine.isSome

theorem accounted_of_moved (hm : Moved s t) (hs : s.Sound) : Accounted s [] t := by
  obtain ⟨popped, hflow, _⟩ := hm.drained.flow hs.ring
  refine ⟨hm.sound hs, ⟨popped, hflow⟩, List.nil_prefix, ?_, hm.config_eq, hm.bound⟩
  simp [hm.fillOffset_eq]

/-- The flush slot was queued, and with it the pending bytes are gone; silence follows. -/
theorem accounted_of_fed {count : Nat} (hcount : count ≤ SinkConfig.trailingSilence)
    (hf : Fed (s.flushSlot :: List.replicate count s.silentSlot) s.emptied t) (hs : s.Sound) :
    Accounted s (s.flushSlot :: List.replicate count s.silentSlot) t := by
  refine ⟨hf.sound hs.emptied, hf.flow, ?_, ?_, ?_, hf.bound⟩
  · rw [lastSlots, List.cons_prefix_cons, List.prefix_replicate_iff]
    simpa using hcount
  · rw [hf.frame]
    simp [emptied]
  · rw [hf.frame]
    rfl

/-- What a stop of `s` leaves that has queued all of its slots: the end of the stream has not been
told to anyone, and the last slot of silence is still there. -/
structure Flushed (s t : TransmitSink E) : Prop extends Accounted s s.lastSlots t where
  stopping_eq : t.feed.stopping = s.feed.stopping
  last_eq : t.queue.getLast? = some s.silentSlot

namespace Accounted

variable (h : Accounted s queued t)
include h

theorem moved (hm : Moved t u) : Accounted s queued u := by
  obtain ⟨popped, hflow⟩ := h.flow
  obtain ⟨more, hmore, _⟩ := hm.drained.flow hflow.sound
  refine ⟨hm.sound h.sound, ⟨popped ++ more, ?_⟩, h.sub, ?_, hm.config_eq.trans h.config_eq,
    hm.bound.trans h.bound⟩
  · simpa using hflow.trans hmore
  · rw [hm.fillOffset_eq]
    exact h.fillOffset_eq

theorem withPhase (phase : Phase) : Accounted s queued { t with phase } :=
  ⟨h.sound.withPhase phase, h.flow, h.sub, h.fillOffset_eq, h.config_eq, h.bound⟩

theorem withStopping : Accounted s queued { t with feed.stopping := true } := by
  obtain ⟨popped, hflow⟩ := h.flow
  exact ⟨h.sound.of_ring h.sound.ring rfl rfl rfl, ⟨popped, hflow.withStopping⟩, h.sub,
    h.fillOffset_eq, h.config_eq, h.bound⟩

end Accounted

end TransmitSink

open TransmitSink (Moved Asked Sound Fed Accounted Flushed asked_report fed_enqueue
  accounted_of_moved accounted_of_fed emptied)

/-- Why a wait for room of a stop ends at a full ring. -/
def Exhausted (limit : Option Duration) (halt : Halt) : Prop :=
  halt = .waiting ∨ Call.OverLimit limit halt ∨ halt = .failed .engineStopped

/-- Why a stop does not return: it is left waiting, or the clock never comes to its deadline. -/
def Unfinished (config : SinkConfig) (now : Instant) (halt : Halt) : Prop :=
  halt = .waiting ∨ halt = .fault .timeRange ∧ config.deadline now = .error .timeRange

namespace Call

variable {p q : Progress E} {now : Instant}

theorem update_eq (f : TransmitSink E → TransmitSink E) (p : Progress E) :
    update f p = .ok () { p with sink := f p.sink } := rfl

theorem padScratch_of_sound (hp : p.sink.Sound) :
    padScratch p = .ok () { p with sink := { p.sink with scratch := p.sink.flushSlot } } := by
  have hlt := hp.fillOffset_lt
  have hlen := hp.scratch_length
  have hkept : takeExactly p.sink.fillOffset p.sink.scratch = .ok _ :=
    takeExactly_eq_ok_iff.mpr ⟨by omega, rfl⟩
  simp only [padScratch]
  rw [bind_of_ok (sink_eq p), bind_of_ok (checked_of_ok hkept)]
  rfl

variable [TransferEngine E]

theorem lookToStop_ends (p : Progress E) :
    Ends (do unless ← askEngine do fail .engineStopped) p (fun _ q => Asked p.sink q.sink)
      (fun halt q => Asked p.sink q.sink ∧ halt = .failed .engineStopped) := by
  refine (askEngine_ends p).seq_never ?_
  intro streams q hq
  cases streams with
  | true => exact hq
  | false => exact ⟨hq, rfl⟩

theorem awaitRoomToStop_ends (hp : p.sink.feed.ring.Sound) :
    Ends awaitRoomToStop p
      (fun _ q => Moved p.sink q.sink ∧ q.sink.feed.ring.hasRoom = true)
      (fun halt q => Moved p.sink q.sink ∧ q.sink.feed.ring.hasRoom = false ∧
        Exhausted p.sink.config.stopTimeout halt) :=
  Ends.step (sink_eq p)
    (awaitingRoom_ends (fun halt _ => halt = .failed .engineStopped) lookToStop_ends _ hp)

/-- Copies of the scratch slot are queued one by one, and the last of them is still there at the
end; a wait that ends early leaves some out. -/
theorem pushSilence_ends {slot : Slot} {limit : Option Duration} (count : Nat)
    (hp : p.sink.feed.ring.Sound) (hscratch : p.sink.scratch = slot)
    (hslot : slot.length = p.sink.feed.ring.slotSize) (hlimit : p.sink.config.stopTimeout = limit) :
    Ends (pushSilence count) p
      (fun _ q => Fed (List.replicate count slot) p.sink q.sink ∧
        ((count = 0 → p.sink.queue.getLast? = some slot) →
          q.sink.queue.getLast? = some slot))
      (fun halt q => (∃ some < count, Fed (List.replicate some slot) p.sink q.sink) ∧
        q.sink.feed.ring.hasRoom = false ∧ Exhausted limit halt) := by
  induction count generalizing p with
  | zero => exact ⟨(Moved.refl p.sink).fed hp, fun hlast => hlast rfl⟩
  | succ count ih =>
      refine (awaitRoomToStop_ends hp).seq ?_ ?_
      case refine_2 =>
        rintro halt q ⟨hq, hfull, hcause⟩
        exact ⟨⟨0, Nat.succ_pos count, hq.fed hp⟩, hfull, hlimit ▸ hcause⟩
      rintro _ q ⟨hq, hroom⟩
      obtain ⟨_, hflow, _⟩ := hq.drained.flow hp
      -- the answer of the push is not looked at: after the wait it is always yes
      have hheld : q.sink.scratch = slot := hq.scratch_eq.trans hscratch
      have hlen : q.sink.scratch.length = q.sink.feed.ring.slotSize := by
        rw [hheld, hflow.slotSize_eq, hslot]
      have hfed : Fed [slot] p.sink
          { q.sink with feed := q.sink.feed.enqueue q.sink.scratch } := by
        rw [← hheld]
        exact (hq.fed hp).trans (fed_enqueue hflow.sound hroom hlen)
      refine Ends.step (pushScratch_of_room hflow.sound hroom hlen) ?_
      refine (ih
        (p := { q with sink := { q.sink with feed := q.sink.feed.enqueue q.sink.scratch } })
        (hflow.sound.enqueue hroom) hheld (hslot.trans hflow.slotSize_eq.symm) ?_).imp ?_ ?_
      · exact (congrArg _ hq.config_eq).trans hlimit
      · rintro _ r ⟨hr, hlast⟩
        refine ⟨hfed.trans hr, fun _ => hlast fun _ => ?_⟩
        rw [TransmitSink.queue, ← hheld]
        change (q.sink.feed.ring.enqueue q.sink.scratch).contents.getLast? = _
        rw [SlotRing.contents_enqueue hflow.sound hroom hlen, List.getLast?_concat]
      · rintro halt r ⟨⟨some, hsome, hr⟩, hfull, hcause⟩
        exact ⟨⟨some + 1, Nat.succ_lt_succ hsome, hfed.trans hr⟩, hfull, hcause⟩

/-! ## The flush -/

/-- The part of a flush that queues slots. -/
def queueTail : Call E Unit := do
  awaitRoomToStop
  padScratch
  let _ ← pushScratch
  update fun sink => { sink with
    fillOffset := 0
    scratch := List.replicate sink.scratch.length 0 }
  pushSilence SinkConfig.trailingSilence

/-- The part of a flush that ends the stream. -/
def endStream : Call E Unit := do
  update fun sink => { sink with feed.stopping := true }
  awaitEnd

theorem flush_eq : (flush : Call E Unit) = (do queueTail; endStream) := by
  simp only [flush, queueTail, endStream, bind_assoc]

/-- A flush queues all of its slots, or is kept from the rest by a full ring. -/
theorem queueTail_ends (hp : p.sink.Sound) :
    Ends queueTail p (fun _ q => Flushed p.sink q.sink)
      (fun halt q => (∃ queued, Accounted p.sink queued q.sink ∧
          queued.length < p.sink.lastSlots.length) ∧
        q.sink.feed.ring.hasRoom = false ∧ Exhausted p.sink.config.stopTimeout halt) := by
  refine (awaitRoomToStop_ends hp.ring).seq ?_ ?_
  case refine_2 =>
    rintro halt q ⟨hq, hfull, hcause⟩
    exact ⟨⟨[], accounted_of_moved hq hp, Nat.succ_pos _⟩, hfull, hcause⟩
  rintro _ q ⟨hq, hroom⟩
  have hqs := hq.sound hp
  have hflush : q.sink.flushSlot.length = q.sink.scratch.length :=
    hqs.flushSlot_length.trans hqs.scratch_length.symm
  have hfed : Fed [p.sink.flushSlot] p.sink.emptied
      { q.sink.emptied with feed := q.sink.feed.enqueue q.sink.flushSlot } := by
    rw [← hq.flushSlot_eq]
    exact (hq.emptied.fed hp.ring).trans (fed_enqueue hqs.ring hroom hqs.flushSlot_length)
  refine Ends.step (padScratch_of_sound hqs) ?_
  refine Ends.step (pushScratch_of_room hqs.ring hroom hqs.flushSlot_length) ?_
  refine Ends.step rfl ?_
  simp only [hflush]
  -- from here on the scratch slot is silent, and copies of it follow
  obtain ⟨_, hflow⟩ := hfed.flow
  refine (pushSilence_ends (p := { q with sink := { q.sink.emptied with
    feed := q.sink.feed.enqueue q.sink.flushSlot } }) SinkConfig.trailingSilence
    hflow.sound hq.silentSlot_eq ?_ (congrArg _ hq.config_eq)).imp ?_ ?_
  · rw [← hq.silentSlot_eq]
    exact hqs.silentSlot_length
  · rintro _ r ⟨hr, hlast⟩
    exact ⟨accounted_of_fed le_rfl (hfed.trans hr) hp, (hfed.trans hr).stopping_eq,
      hlast fun hzero => absurd hzero (Nat.succ_ne_zero _)⟩
  · rintro halt r ⟨⟨some, hsome, hr⟩, hfull, hcause⟩
    refine ⟨⟨_, accounted_of_fed hsome.le (hfed.trans hr) hp, ?_⟩, hfull, hcause⟩
    simp only [TransmitSink.lastSlots, List.length_cons, List.length_replicate]
    omega

/-- The last wait is for the engine to end, and nothing but its limit cuts it short. -/
theorem awaitEnd_ends (hp : p.sink.feed.ring.Sound) :
    Ends awaitEnd p (fun _ q => Moved p.sink q.sink)
      (fun halt q => Moved p.sink q.sink ∧
        (halt = .waiting ∨ OverLimit p.sink.config.stopTimeout halt)) := by
  have hwatches : Watches (do return !(← askEngine)) (Pure.pure () : Call E Unit)
      (fun _ _ => True) (fun _ _ => False) := by
    refine ⟨fun q => ?_, fun q => Asked.refl q.sink⟩
    refine (askEngine_ends q).seq_never ?_
    exact fun _ r hr => ⟨hr, trivial⟩
  refine Ends.step (sink_eq p) ?_
  refine (hwatches.waitThrough_ends _ _ hp).imp (fun _ _ hq => hq.1) ?_
  rintro halt q ⟨hq, _, hwait | hover | hnever⟩
  · exact ⟨hq, .inl hwait⟩
  · exact ⟨hq, .inr hover⟩
  · exact hnever.elim

/-! ## The stop -/

/-- The end of a stop: the engine is ended whatever became of the flush, whose error comes first. -/
theorem stopEngine_ends (flushed : Except SinkError Unit) (hp : p.sink.feed.ring.Sound) :
    Ends (stopEngine flushed) p
      (fun _ q => Moved { p.sink with phase := .stopped } q.sink ∧ flushed = .ok ())
      (fun halt q => Moved { p.sink with phase := .stopped } q.sink ∧
        ((∃ error, flushed = .error error ∧ halt = .failed error) ∨
          flushed = .ok () ∧ ∃ problem, halt = .failed (.hardwareStop problem))) := by
  refine (gap_ends hp).seq_never ?_
  intro _ q hq
  refine (act_ends _ _ (hq.drained.sound hp)).seq_never ?_
  intro ended r hr
  have hended : Moved { p.sink with phase := .stopped } { r.sink with phase := .stopped } :=
    (hq.trans hr).withPhase .stopped
  have hreport (notice : Notice) {t : TransmitSink E}
      (ht : Moved { p.sink with phase := .stopped } t) :
      Moved { p.sink with phase := .stopped } (t.report notice) :=
    ht.trans (asked_report t notice).toMoved
  refine Ends.step rfl ?_
  refine Ends.step rfl ?_
  refine Ends.step rfl ?_
  cases ended with
  | error problem =>
      refine Ends.step rfl ?_
      cases flushed with
      | error error => exact ⟨hreport _ (hreport _ hended), .inl ⟨error, rfl, rfl⟩⟩
      | ok _ => exact ⟨hreport _ (hreport _ hended), .inr ⟨rfl, problem, rfl⟩⟩
  | ok _ =>
      cases flushed with
      | error error => exact ⟨hreport _ hended, .inl ⟨error, rfl, rfl⟩⟩
      | ok _ => exact ⟨hreport _ hended, rfl⟩

/-- How a flush from `p` ends, with the slots that it has queued. Either all of them are, and at
most the end of the engine is late, or a wait for room has given up at a full ring. -/
inductive FlushEnd (p : Progress E) :
    Except SinkError Unit → List Slot → TransmitSink E → Prop where
  | whole {q : Progress E} {t : TransmitSink E} {flushed : Except SinkError Unit} :
      queueTail p = .ok () q → Accounted p.sink p.sink.lastSlots t →
      (flushed = .ok () ∨ ∃ limit, p.sink.config.stopTimeout = some limit ∧
        flushed = .error (.stopTimeout limit)) → FlushEnd p flushed p.sink.lastSlots t
  | cut {q : Progress E} {error : SinkError} {queued : List Slot} :
      queueTail p = .error (.failed error) q → Accounted p.sink queued q.sink →
      queued.length < p.sink.lastSlots.length → q.sink.feed.ring.hasRoom = false →
      Exhausted p.sink.config.stopTimeout (.failed error) → FlushEnd p (.error error) queued q.sink

theorem FlushEnd.accounted {flushed : Except SinkError Unit} {queued : List Slot}
    {t : TransmitSink E} (h : FlushEnd p flushed queued t) : Accounted p.sink queued t := by
  cases h with
  | whole _ haccount _ => exact haccount
  | cut _ haccount _ _ _ => exact haccount

theorem flush_ends (hp : p.sink.Sound) :
    Ends (attempt flush) p (fun flushed q => ∃ queued, FlushEnd p flushed queued q.sink)
      (fun halt _ => halt = .waiting) := by
  refine Ends.attempt ?_
  rw [flush_eq]
  have htail := queueTail_ends hp
  cases he : queueTail p with
  | ok _ q =>
      have hq := (htail.ok he).toAccounted.withStopping
      refine Ends.step he (Ends.step rfl ?_)
      refine (awaitEnd_ends (p := { q with sink := { q.sink with feed.stopping := true } })
        hq.sound.ring).imp ?_ ?_
      · exact fun _ r hr => ⟨_, .whole he (hq.moved hr) (.inl rfl)⟩
      · rintro halt r ⟨hr, rfl | ⟨limit, hlimit, rfl⟩⟩
        · rfl
        · have hlate : p.sink.config.stopTimeout = some limit := by
            rw [← hq.config_eq]
            exact hlimit
          exact ⟨_, .whole he (hq.moved hr) (.inr ⟨limit, hlate, rfl⟩)⟩
  | error halt q =>
      obtain ⟨⟨queued, haccount, hlen⟩, hfull, hcause⟩ := htail.error he
      refine .of_error (bind_of_error he) ?_
      cases halt with
      | failed error => exact ⟨queued, .cut he haccount hlen hfull hcause⟩
      | waiting => rfl
      | fault fault =>
          rcases hcause with h | ⟨_, _, h⟩ | h
          · cases h
          · cases h
          · cases h

/-! ## The deadline -/

/-- With a deadline a flush goes on as without one; else it ends before it has done anything. -/
theorem flushAndWait_cases (now : Instant) (p : Progress E) :
    (∃ deadline, p.sink.config.deadline now = .ok deadline ∧ flushAndWait now p = flush p) ∨
      p.sink.config.deadline now = .error .timeRange ∧
        flushAndWait now p = .error (.fault .timeRange) p := by
  simp only [flushAndWait]
  rw [bind_of_ok (sink_eq p)]
  rcases p.sink.config.deadline_cases now with ⟨deadline, he⟩ | he
  · exact .inl ⟨deadline, he, bind_of_ok (checked_of_ok he)⟩
  · refine .inr ⟨he, ?_⟩
    rw [he]
    rfl

theorem flushAndWait_of_deadline {deadline : Option Instant}
    (h : p.sink.config.deadline now = .ok deadline) : flushAndWait now p = flush p := by
  rcases flushAndWait_cases now p with ⟨_, _, hsame⟩ | ⟨hnone, _⟩
  · exact hsame
  · cases hnone.symm.trans h

/-- A flush by a deadline that returns is one without. -/
theorem flushAndWait_eq_ok (he : flushAndWait now p = .ok () q) : flush p = .ok () q := by
  rcases flushAndWait_cases now p with ⟨_, _, hsame⟩ | ⟨_, hfault⟩
  · exact hsame.symm.trans he
  · cases hfault.symm.trans he

/-- What is to be shown of a flush by a deadline, apart from the deadline. -/
theorem Ends.byDeadline {done : Except SinkError Unit → Progress E → Prop}
    {halted : Halt → Progress E → Prop} (h : Ends (Call.attempt flush) p done halted)
    (hnever : p.sink.config.deadline now = .error .timeRange → halted (.fault .timeRange) p) :
    Ends (Call.attempt (flushAndWait now)) p done halted := by
  rcases flushAndWait_cases now p with ⟨_, _, he⟩ | ⟨hnone, he⟩
  · exact h.congr (attempt_congr he)
  · exact .of_error (attempt_of_fault he) (hnever hnone)

theorem flushAndWait_ends (now : Instant) (hp : p.sink.Sound) :
    Ends (attempt (flushAndWait now)) p
      (fun flushed q => ∃ queued, FlushEnd p flushed queued q.sink)
      (fun halt _ => Unfinished p.sink.config now halt) :=
  ((flush_ends hp).imp (fun _ _ hq => hq) (fun _ _ hwait => .inl hwait)).byDeadline
    fun hnone => .inr ⟨rfl, hnone⟩

/-- What a stop that returns has done: a flush, and then the engine was ended. An error of the
flush comes before one of the engine. -/
structure Stopped (p : Progress E) (flushed result : Except SinkError Unit) (queued : List Slot)
    (s t : TransmitSink E) : Prop where
  flush : FlushEnd { p with sink := { p.sink with phase := .stopping } } flushed queued s
  ended : Moved { s with phase := .stopped } t
  result_eq : result = flushed ∨
    flushed = .ok () ∧ ∃ problem, result = .error (.hardwareStop problem)

/-- The stop of a streaming sink: its flush, and then the end of its engine. -/
theorem stop_of_streaming (hphase : p.sink.phase = .streaming)
    (hengine : p.sink.engine.isSome = true) :
    stopAt now p = (do stopEngine (← attempt (flushAndWait now)))
      { p with sink := { p.sink with phase := .stopping } } := by
  obtain ⟨engine, he⟩ := Option.isSome_iff_exists.mp hengine
  simp only [stopAt]
  rw [bind_of_ok (sink_eq p)]
  simp only [he]
  rw [if_pos hphase, bind_of_ok (update_eq _ p), he]

/-- A stop of a streaming sink returns as described, or it does not return. -/
theorem stop_ends (now : Instant) (hp : p.sink.Sound) (hphase : p.sink.phase = .streaming)
    (hengine : p.sink.engine.isSome = true) :
    Ends (attempt (stopAt now)) p
      (fun result q => ∃ flushed queued s, Stopped p flushed result queued s q.sink)
      (fun halt _ => Unfinished p.sink.config now halt) := by
  refine Ends.attempt ?_
  simp only [Ends, stop_of_streaming hphase hengine]
  refine (flushAndWait_ends (p := { p with sink := { p.sink with phase := .stopping } }) now
    (hp.withPhase .stopping)).seq ?_ ?_
  · rintro flushed r ⟨queued, hr⟩
    refine (stopEngine_ends flushed hr.accounted.sound.ring).imp ?_ ?_
    · rintro _ q ⟨hq, rfl⟩
      exact ⟨_, queued, r.sink, hr, hq, .inl rfl⟩
    · rintro halt q ⟨hq, ⟨error, rfl, rfl⟩ | ⟨rfl, problem, rfl⟩⟩
      · exact ⟨_, queued, r.sink, hr, hq, .inl rfl⟩
      · exact ⟨_, queued, r.sink, hr, hq, .inr ⟨rfl, problem, rfl⟩⟩
  · rintro halt q hstuck
    rcases hstuck with rfl | ⟨rfl, hnone⟩
    · exact .inl rfl
    · exact .inr ⟨rfl, hnone⟩

/-- A stop of a streaming sink faults just if the clock never comes to its deadline. It has queued
nothing by then, and its engine goes on. -/
theorem stop_faults_iff (hp : p.sink.Sound) (hphase : p.sink.phase = .streaming)
    (hengine : p.sink.engine.isSome = true) {fault : Fault} :
    attempt (stopAt now) p = .error (.fault fault) q ↔
      fault = .timeRange ∧ p.sink.config.deadline now = .error .timeRange ∧
        q = { p with sink := { p.sink with phase := .stopping } } := by
  have hnever (hnone : p.sink.config.deadline now = .error .timeRange) :
      attempt (stopAt now) p = .error (.fault .timeRange)
        { p with sink := { p.sink with phase := .stopping } } := by
    rcases flushAndWait_cases now { p with sink := { p.sink with phase := .stopping } } with
      ⟨_, hsome, _⟩ | ⟨_, hflush⟩
    · cases hnone.symm.trans hsome
    · have hfault := attempt_of_fault hflush
      simp only [attempt, stop_of_streaming hphase hengine]
      rw [bind_of_error hfault]
  constructor
  · intro he
    rcases (stop_ends now hp hphase hengine).error he with hwait | ⟨hfault, hnone⟩
    · cases hwait
    · cases hfault
      cases (hnever hnone).symm.trans he
      exact ⟨rfl, hnone, rfl⟩
  · rintro ⟨rfl, hnone, rfl⟩
    exact hnever hnone

end Call

end IqTransmit
