import IqTransmit.Proofs.Sink.Delivery
import IqTransmit.Proofs.Sink.Operation

/-!
What drains are told after a stop. A stop that has queued all of its slots has marked the stream as
stopping, and only a start that gets as far as the engine takes the mark back. Until then a drain is
either given a slot or told of the end, and no underrun is counted.
-/

namespace IqTransmit

variable {E : Type}

namespace Feed

variable {f g h : Feed}

/-- The stream is over in `g`. Since `f` no underrun was counted, and silence told of the end. -/
structure Over (f g : Feed) : Prop where
  stopping : g.stopping = true
  underruns_eq : g.stats.underruns = f.stats.underruns
  since : ∃ since, g.journal = since ++ f.journal ∧
    ∀ drainer status size, .silent drainer status size ∈ since → status = .terminate

theorem Over.refl (h : f.stopping = true) : Over f f :=
  ⟨h, rfl, [], rfl, fun _ _ _ hnil => absurd hnil List.not_mem_nil⟩

/-- An entry more, which is not silence that lets the stream go on. -/
theorem Over.noted (ho : Over f g) (event : Event) (hjournal : h.journal = event :: g.journal)
    (hstop : h.stopping = g.stopping) (hunderruns : h.stats.underruns = g.stats.underruns)
    (hevent : ∀ drainer status size, event = .silent drainer status size → status = .terminate) :
    Over f h := by
  obtain ⟨since, hsince, htold⟩ := ho.since
  refine ⟨hstop.trans ho.stopping, hunderruns.trans ho.underruns_eq, event :: since, ?_, ?_⟩
  · rw [hjournal, hsince, List.cons_append]
  · intro drainer status size hmem
    rcases List.mem_cons.mp hmem with hnew | hold
    · exact hevent drainer status size hnew.symm
    · exact htold drainer status size hold

theorem Over.report (ho : Over f g) (notice : Notice) : Over f (g.report notice) :=
  ho.noted (.reported notice) rfl rfl rfl nofun

theorem Over.enqueue (ho : Over f g) (slot : Slot) : Over f (g.enqueue slot) :=
  ho.noted (.queued slot) rfl rfl rfl nofun

/-- A drain is given a slot or told of the end. -/
theorem Over.drain (ho : Over f g) (hg : g.ring.Sound) {drainer : Drainer} {dest : List Int8}
    {delivery : Delivery} (he : Feed.drain drainer dest g = .ok delivery h) : Over f h := by
  rcases drain_cases hg drainer dest with ⟨_, hd⟩ | ⟨_, _, hd⟩ | ⟨_, hflows, _⟩
  · rw [he] at hd
    cases hd
    exact ho.noted (.sent drainer _) rfl rfl rfl nofun
  · rw [he] at hd
    cases hd
    refine ho.noted (.silent drainer .terminate dest.length) rfl rfl rfl ?_
    intro _ _ _ hevent
    cases hevent
    rfl
  · cases hflows.symm.trans ho.stopping

theorem Over.drained (ho : Over f g) (hg : g.ring.Sound) (hd : Drained g h) : Over f h := by
  induction hd with
  | refl => exact ho
  | drain hbefore he ih => exact ih.drain (hbefore.sound hg) he
  | report notice _ ih => exact ih.report notice

end Feed

namespace TransmitSink

variable {s t u : TransmitSink E}

/-- The stopped sink `t` has come of `s`, and the stream was over all the while. -/
structure After (s t : TransmitSink E) : Prop where
  sound : t.Sound
  phase_eq : t.phase = .stopped
  slotSize_eq : t.feed.ring.slotSize = s.feed.ring.slotSize
  feed_over : s.feed.Over t.feed

theorem After.moved (h : After s t) (hm : Moved t u) : After s u := by
  obtain ⟨_, hflow, _⟩ := hm.drained.flow h.sound.ring
  exact ⟨hm.sound h.sound, hm.phase_eq.trans h.phase_eq, hflow.slotSize_eq.trans h.slotSize_eq,
    h.feed_over.drained h.sound.ring hm.drained⟩

theorem After.worked {input : List Sample} {count : Nat} (h : After s t)
    (hw : Worked input t count u) : After s u := by
  obtain ⟨hsound, _, _, hflow, _, _⟩ := hw.flow h.sound
  refine ⟨hsound, hw.phase_eq.trans h.phase_eq, hflow.slotSize_eq.trans h.slotSize_eq, ?_⟩
  cases hw with
  | partly moved _ => exact h.feed_over.drained h.sound.ring moved.drained
  | @completing r u moved _ _ after =>
      have hr := h.moved moved
      exact (hr.feed_over.drained hr.sound.ring after.drained).enqueue u.scratch

theorem asked_withStrategy (s : TransmitSink E) (strategy : Cs8.Strategy) :
    Asked { s with converter := .ofStrategy strategy } (s.withStrategy strategy) := by
  simp only [withStrategy]
  generalize Cs8.Converter.noticesOf strategy = notices
  generalize { s with converter := .ofStrategy strategy } = t
  induction notices generalizing t with
  | nil => exact .refl t
  | cons notice rest ih => exact (asked_report t notice).trans (ih (t.report notice))

theorem After.withConverter (h : After s t) (converter : Cs8.Converter) :
    After s { t with converter } :=
  ⟨h.sound.of_ring h.sound.ring rfl rfl rfl, h.phase_eq, h.slotSize_eq, h.feed_over⟩

theorem After.bind (h : After s t) (engine : E) : After s (t.bind engine).2 := by
  simp only [TransmitSink.bind, h.phase_eq]
  exact ⟨h.sound.of_ring h.sound.ring rfl rfl rfl, rfl, h.slotSize_eq, h.feed_over⟩

end TransmitSink

open TransmitSink (After Moved Sound Accounted)

namespace Call

variable {s : TransmitSink E} {p q : Progress E} {now : Instant}

/-- A rule for calls whose errors are results: it is enough if both ends are covered. -/
theorem Ends.attempt_same {α : Type} {call : Call E α} {P : TransmitSink E → Prop}
    (h : Ends call p (fun _ q => P q.sink) (fun _ q => P q.sink)) :
    Ends (Call.attempt call) p (fun _ q => P q.sink) (fun _ q => P q.sink) := by
  apply Ends.attempt
  apply h.imp (fun _ _ hq => hq)
  intro halt q hq
  cases halt <;> exact hq

variable [TransferEngine E]

theorem work_after (input : List Sample) (h : After s p.sink) :
    Ends (work input) p (fun _ q => After s q.sink) (fun _ q => After s q.sink) :=
  (work_ends input h.sound).imp (fun _ _ hw => h.worked hw) (fun _ _ hb => h.moved hb.moved)

theorem Rounds.after {input rest : List Sample} (hr : Rounds input p rest q)
    (h : After s p.sink) : After s q.sink := by
  induction hr with
  | refl => exact h
  | step _ he ih => exact (work_after _ ih).ok he

theorem workAll_after (input : List Sample) (h : After s p.sink) :
    Ends (workAll input) p (fun _ q => After s q.sink) (fun _ q => After s q.sink) := by
  apply (workAll_ends input h.sound).imp (fun _ _ hr => hr.after h)
  rintro _ _ ⟨rest, r, _, hr, he⟩
  exact (work_after rest (hr.after h)).error he

/-- If a flush gets as far as the end of its pushes, it marks the stream as stopping. -/
theorem flush_marks (hp : p.sink.Sound) :
    Ends (attempt flush) p
      (fun _ q => (∃ r, queueTail p = .ok () r) → q.sink.feed.stopping = true)
      (fun _ _ => True) := by
  apply Ends.attempt
  rw [flush_eq]
  have htail := queueTail_ends hp
  cases he : queueTail p with
  | ok _ q =>
      have hq := (htail.ok he).sound.ring
      have hkept {r : Progress E}
          (hm : Moved { q.sink with feed.stopping := true } r.sink) :
          r.sink.feed.stopping = true := by
        obtain ⟨_, _, hstop⟩ := hm.drained.flow hq
        exact hstop
      refine Ends.step he (Ends.step rfl ?_)
      apply (awaitEnd_ends (p := { q with sink := { q.sink with feed.stopping := true } }) hq).imp
      · exact fun _ r hm _ => hkept hm
      · intro halt r hm
        cases halt with
        | failed error => exact fun _ => hkept hm.1
        | fault fault => trivial
        | waiting => trivial
  | error halt q =>
      apply Ends.of_error (bind_of_error he)
      cases halt with
      | failed error =>
          rintro ⟨r, hr⟩
          cases hr
      | fault fault => trivial
      | waiting => trivial

/-- What a stop that returns leaves: it has queued the slots `queued`, and the stream is marked as
stopping if these are all six. -/
structure Ceased (p : Progress E) (result : Except SinkError Unit) (queued : List Slot)
    (t : TransmitSink E) : Prop where
  sound : t.Sound
  phase_eq : t.phase = .stopped
  flow : ∃ popped, p.sink.feed.Flow t.feed queued popped
  all : (result = .ok () ∨ ∃ problem, result = .error (.hardwareStop problem)) → queued.length = 6
  stopping : queued.length = 6 → t.feed.stopping = true

theorem ceased_of_stopped {flushed result : Except SinkError Unit} {queued : List Slot}
    {s t : TransmitSink E} (h : Stopped p flushed result queued s t)
    (hmarks : (∃ r, queueTail { p with sink := { p.sink with phase := .stopping } } = .ok () r) →
      s.feed.stopping = true) : Ceased p result queued t := by
  have haccount := (h.flush.accounted.withPhase .stopped).moved h.ended
  obtain ⟨_, _, hkept⟩ := h.ended.drained.flow h.flush.accounted.sound.ring
  refine ⟨haccount.sound, h.ended.phase_eq, haccount.flow, ?_, ?_⟩
  · intro hresult
    cases hflush : h.flush with
    | whole _ _ _ => rfl
    | cut _ _ _ _ hcause =>
        rcases h.result_eq with rfl | ⟨hok, _⟩
        · rcases hresult with hok | ⟨problem, hproblem⟩
          · cases hok
          · cases hproblem
            rcases hcause with hwait | ⟨_, _, hlate⟩ | hgone
            · cases hwait
            · cases hlate
            · cases hgone
        · cases hok
  · intro hlen
    refine hkept.trans (hmarks ?_)
    cases hflush : h.flush with
    | whole hqueued _ _ => exact ⟨_, hqueued⟩
    | cut _ _ hshort _ _ => exact absurd hlen (Nat.ne_of_lt hshort)

/-- How a stop of a streaming sink ends that returns. -/
theorem stop_ceases (hp : p.sink.Sound) (hphase : p.sink.phase = .streaming)
    (hengine : p.sink.engine.isSome = true) :
    Ends (attempt (stopAt now)) p (fun result q => ∃ queued, Ceased p result queued q.sink)
      (fun _ _ => True) := by
  have hsound := hp.withPhase .stopping
  apply Ends.attempt
  simp only [Ends, stop_of_streaming hphase hengine]
  apply ((flushAndWait_ends (p := { p with sink := { p.sink with phase := .stopping } }) now
    hsound).and ((flush_marks hsound).byDeadline fun _ => trivial)).seq
  · rintro flushed r ⟨⟨queued, hr⟩, hmarks⟩
    apply (stopEngine_ends flushed hr.accounted.sound.ring).imp
    · rintro _ q ⟨hq, rfl⟩
      exact ⟨queued, ceased_of_stopped ⟨hr, hq, .inl rfl⟩ hmarks⟩
    · rintro halt q ⟨hq, ⟨error, rfl, rfl⟩ | ⟨rfl, problem, rfl⟩⟩
      · exact ⟨queued, ceased_of_stopped ⟨hr, hq, .inl rfl⟩ hmarks⟩
      · exact ⟨queued, ceased_of_stopped ⟨hr, hq, .inr ⟨rfl, problem, rfl⟩⟩ hmarks⟩
  · rintro halt q ⟨hstuck, _⟩
    rcases hstuck with rfl | ⟨rfl, _⟩
    · trivial
    · trivial

/-- A stop leaves a sink that is not streaming as it is. -/
theorem attempt_stop_after (h : After s p.sink) :
    Ends (attempt (stopAt now)) p (fun _ q => After s q.sink) (fun _ q => After s q.sink) := by
  have hidle : p.sink.phase ≠ .streaming := by
    rw [h.phase_eq]
    decide
  obtain ⟨_, hsame⟩ := stop_of_not_streaming now hidle
  exact .of_ok hsame h

end Call

namespace TransmitSink

variable {s t : TransmitSink E}

theorem After.withStrategy (h : After s t) (strategy : Cs8.Strategy) :
    After s (t.withStrategy strategy) :=
  (h.withConverter (.ofStrategy strategy)).moved (asked_withStrategy t strategy).toMoved

/-- A drain that finds the ring empty once the stream is over is told of the end, and no underrun
is counted. -/
theorem After.drain_of_empty (h : After s t) (hempty : t.queue = []) (drainer : Drainer)
    (dest : List Int8) :
    ∃ u, t.drain drainer dest = .ok ⟨.terminate, List.replicate dest.length 0⟩ u ∧
      u.feed.stats.underruns = s.feed.stats.underruns := by
  have hnone : t.feed.ring.isEmpty = true := (SlotRing.contents_eq_nil_iff _).mp hempty
  have hserves : ¬ t.feed.Serves dest.length := by
    rintro ⟨_, hqueued⟩
    cases hnone.symm.trans hqueued
  have hdrain := Feed.drain_of_not_serves hserves drainer
  simp only [Feed.silence, h.feed_over.stopping, if_true] at hdrain
  simp only [drain, hdrain]
  exact ⟨_, rfl, h.feed_over.underruns_eq⟩

variable [TransferEngine E]

/-- A start that does not get as far as the engine leaves the sink as it is. -/
theorem start_of_not_reached (hphase : s.phase = .stopped)
    (hreply : (Reply.started s.start.1 : Reply E).reachedEngine = false) : s.start.2 = s := by
  rcases s.start_cases with ⟨_, _, hstart, hfailed⟩ | ⟨hstreams, _⟩ | ⟨_, _, _, _, _, _, hstart⟩
  · rw [hstart] at hreply ⊢
    cases hfailed with
    | unbound _ => rfl
    | mismatched _ _ _ => rfl
    | rejected _ _ _ _ => cases hreply
  · cases hphase.symm.trans hstreams
  · rw [hstart] at hreply
    cases hreply

/-- Nothing but a start that gets as far as the engine takes the mark back. -/
theorem After.perform (h : After s t) (operation : Operation E)
    (hreply : (operation.perform t).1.reachedEngine = false) : After s (operation.perform t).2 := by
  cases operation with
  | bind engine => exact h.bind engine
  | useStrategy strategy => exact h.withStrategy strategy
  | start =>
      have hsame : t.start.2 = t := start_of_not_reached h.phase_eq hreply
      simp only [Operation.perform]
      rw [hsame]
      exact h
  | drain drainer dest =>
      obtain ⟨delivery, g, _, he, _, _⟩ := Feed.drain_flow h.sound.ring drainer dest
      have hdrain : t.drain drainer dest = .ok delivery { t with feed := g } := by
        rw [TransmitSink.drain, he]
      simp only [Operation.perform, hdrain]
      exact h.moved (moved_of_drain hdrain)
  | act action =>
      apply Operation.ofCall_keeps
      apply (Call.act_ends action (.ok ()) h.sound.ring).imp
      · exact fun _ _ hq => h.moved hq
      · exact fun _ _ hnever => hnever.elim
  | work input pauses gaps => exact Operation.ofCall_keeps (Call.work_after input h).attempt_same
  | workAll input pauses gaps =>
      exact Operation.ofCall_keeps (Call.workAll_after input h).attempt_same
  | stop pauses gaps now => exact Operation.ofCall_keeps (Call.attempt_stop_after h)

open Call (attempt)

variable {sink : TransmitSink E}

/-- Once a stop of a streaming sink has returned that has queued all of its slots, and until a start
gets as far as the engine, every drain that finds the ring empty is told of the end, and no underrun
is counted. A stop without an error, or with one of the engine, has queued them. -/
theorem drains_end_after_stop (hr : Reachable sink) (hphase : sink.phase = .streaming)
    {now : Instant} {pauses : List Pause} {gaps : List (List Move)}
    {result : Except SinkError Unit} {stopped : Progress E}
    (he : attempt (Call.stopAt now) ⟨sink, pauses, gaps⟩ = .ok result stopped)
    (hall : (result = .ok () ∨ ∃ problem, result = .error (.hardwareStop problem)) ∨
      stopped.sink.feed.queuedSlots.length = sink.feed.queuedSlots.length + 6)
    {operations : List (Operation E)} {replies : List (Reply E)} {last : TransmitSink E}
    (hrun : Operation.run stopped.sink operations = (replies, last))
    (hstart : ∀ reply ∈ replies, reply.reachedEngine = false) :
    last.feed.stats.underruns = stopped.sink.feed.stats.underruns ∧
      (∃ since, last.feed.journal = since ++ stopped.sink.feed.journal ∧
        ∀ drainer status size, .silent drainer status size ∈ since → status = .terminate) ∧
      ∀ drainer (dest : List Int8), last.queue = [] →
        ∃ next, last.drain drainer dest = .ok ⟨.terminate, List.replicate dest.length 0⟩ next ∧
          next.feed.stats.underruns = stopped.sink.feed.stats.underruns := by
  have h := hr.invariant
  obtain ⟨queued, hceased⟩ := (Call.stop_ceases (p := ⟨sink, pauses, gaps⟩) h.toSound hphase
    (h.bound_of_streaming hphase)).ok he
  obtain ⟨_, hflow⟩ := hceased.flow
  have hlen : queued.length = 6 := by
    rcases hall with hresult | hcount
    · exact hceased.all hresult
    · rw [hflow.queued_eq, List.length_append] at hcount
      exact Nat.add_left_cancel hcount
  have hfirst : After stopped.sink stopped.sink :=
    ⟨hceased.sound, hceased.phase_eq, rfl, .refl (hceased.stopping hlen)⟩
  have hafter : After stopped.sink (Operation.run stopped.sink operations).2 := by
    have hreplies : ∀ reply ∈ (Operation.run stopped.sink operations).1,
        reply.reachedEngine = false := by
      rw [hrun]
      exact hstart
    exact Operation.run_keeps (fun operation _ _ ht hreply => ht.perform operation hreply) hfirst
      hreplies
  rw [hrun] at hafter
  refine ⟨hafter.feed_over.underruns_eq, hafter.feed_over.since, ?_⟩
  exact fun drainer dest hempty => hafter.drain_of_empty hempty drainer dest

/-- A rebind to an engine of another transfer size, a start that this fails, and a drain. -/
def rebindAndMismatchedStart : List (Operation Steered) :=
  [.bind { transferSize := 6 }, .start, .drain .other [1, 2, 3, 4]]

theorem drain_ends_after_failed_start :
    ∃ (sink : TransmitSink Steered) (pauses : List Pause) (stopped : Progress Steered)
      (next : TransmitSink Steered),
      Reachable sink ∧ sink.phase = .streaming ∧
        attempt (Call.stopAt ⟨0⟩) ⟨sink, pauses, []⟩ = .ok (.ok ()) stopped ∧
        (Operation.run stopped.sink rebindAndMismatchedStart).2.drain .engine [1, 2, 3, 4] =
          .ok ⟨.terminate, [0, 0, 0, 0]⟩ next ∧
        next.feed.stats.underruns = stopped.sink.feed.stats.underruns := by
  have hmade := Reachable.make (rfl : make { bufferCount := 2, slotSize := 4 }
    (some ({ transferSize := 4, batch := 1 } : Steered)) = .ok _)
  obtain ⟨sink, hr, hphase, hrun⟩ : ∃ sink : TransmitSink Steered,
      Reachable sink ∧ sink.phase = .streaming ∧
        (afterStop ⟨sink, List.replicate 8 { moves := [.engine] }, []⟩).map (fun q =>
          ((Operation.run q.sink rebindAndMismatchedStart).1.all (!·.reachedEngine),
            (Operation.run q.sink rebindAndMismatchedStart).2.queue)) = some (true, []) :=
    ⟨_, hmade.start, rfl, by decide +kernel⟩
  obtain ⟨q, hq, hview⟩ := afterStop_eq _ hrun
  obtain ⟨hreplies, hempty⟩ := Prod.mk.inj hview
  have hall : ∀ reply ∈ (Operation.run q.sink rebindAndMismatchedStart).1,
      reply.reachedEngine = false := by
    simpa using hreplies
  obtain ⟨_, _, hdrain⟩ := drains_end_after_stop hr hphase hq (.inl (.inl rfl)) rfl hall
  obtain ⟨next, hnext, hcount⟩ := hdrain .engine [1, 2, 3, 4] hempty
  exact ⟨sink, _, q, next, hr, hphase, hq, hnext, hcount⟩

/-- A stop to which the engine keeps up, a start that the engine rejects, and a drain. -/
def stopAndRejectedStart : List (Operation Steered) :=
  [.stop (List.replicate 8 { moves := [.engine] }) [],
    .act fun e => .finish (.ok ()) { e with startError := some "busy" }, .start,
    .drain .other [1, 2, 3, 4]]

/-- A stop that comes to its limit in a wait for room, and two drains. -/
def stopWithoutRoom : List (Operation Steered) :=
  [.stop [{ elapsed := ⟨1000⟩ }] [], .drain .other [1, 2, 3, 4], .drain .other [1, 2, 3, 4]]

/-- Two runs of a stop of a streaming sink after which a drain of a whole slot finds the ring empty
and is not told of the end. In one a start that the engine rejects comes between; in the other the
stop has given up a wait for room, so that it has not marked the stream. -/
theorem drain_proceeds_after_stop :
    (∃ sink : TransmitSink Steered,
      Reachable sink ∧ sink.phase = .streaming ∧ sink.feed.stats.underruns = 0 ∧
        (Operation.run sink stopAndRejectedStart).1 =
          [.finished (.ok ()), .acted (.ok ()), .started (.error (.hardwareStart "busy")),
            .drained ⟨.proceed, [0, 0, 0, 0]⟩] ∧
        (Operation.run sink stopAndRejectedStart).2.feed.stats.underruns = 1) ∧
    ∃ sink : TransmitSink Steered,
      Reachable sink ∧ sink.phase = .streaming ∧ sink.feed.stats.underruns = 0 ∧
        (Operation.run sink stopWithoutRoom).1 =
          [.finished (.error (.stopTimeout ⟨1000⟩)), .drained ⟨.proceed, [0, 0, 0, 0]⟩,
            .drained ⟨.proceed, [0, 0, 0, 0]⟩] ∧
        (Operation.run sink stopWithoutRoom).2.feed.stats.underruns = 1 := by
  have hlively := Reachable.make (rfl : make { bufferCount := 2, slotSize := 4 }
    (some ({ transferSize := 4, batch := 1 } : Steered)) = .ok _)
  have hidle := Reachable.make
    (rfl : make { bufferCount := 1, slotSize := 4, stopTimeout := some ⟨1000⟩ }
      (some ({ transferSize := 4 } : Steered)) = .ok _)
  constructor
  · exact ⟨_, hlively.start, rfl, rfl, by decide +kernel, by decide +kernel⟩
  · exact ⟨_, hidle.start, rfl, rfl, by decide +kernel, by decide +kernel⟩

end TransmitSink

end IqTransmit
