import IqTransmit.Proofs.Sink.Blocking

/-!
The order of filling and draining. Drains may come between the calls of `work`, between the look of
one for room and its push, and while it waits. If there are slots for all of them at first, it makes
no difference: once they leave room enough for the input, the call takes all of it, and what was
drained and what is left are as if the drains had all come before the call.
-/

namespace IqTransmit

variable {E : Type}

namespace TransmitSink

variable {origin s t : TransmitSink E} {taken : List Sample}
variable {given given' : List (Drainer × Delivery)}

/-- What was sent to drains that all found their slot is the beginning of the stream, cut into
slots. -/
theorem Streamed.slots_eq (h : Streamed origin taken s) (ho : origin.Invariant)
    (hgiven : origin.feed.Fulfilled s.feed given) :
    given.map (·.2.bytes) ++ s.queue = groups origin.config.slotSize (origin.stream taken) := by
  obtain ⟨sent, _, hsent, _, _, _, hgroups, _⟩ := h.groups_eq ho
  obtain ⟨_, hflow⟩ := hgiven.flow
  rw [hgroups]
  congr 1
  have hsame := hflow.sent_eq.symm.trans hsent
  exact List.append_cancel_left hsame

/-- The samples taken, and the number of slots drained, tell what was drained and what is left. -/
theorem Streamed.unique (hs : Streamed origin taken s) (ht : Streamed origin taken t)
    (ho : origin.Invariant) (hgiven : origin.feed.Fulfilled s.feed given)
    (hgiven' : origin.feed.Fulfilled t.feed given') (hlen : given.length = given'.length) :
    given.map Prod.snd = given'.map Prod.snd ∧ s.queue = t.queue ∧ s.fillOffset = t.fillOffset ∧
      s.pending = t.pending ∧ s.feed.stats = t.feed.stats := by
  obtain ⟨_, _, _, _, _, _, _, hpending, hoffset⟩ := hs.groups_eq ho
  obtain ⟨_, _, _, _, _, _, _, hpending', hoffset'⟩ := ht.groups_eq ho
  have hslots := (hs.slots_eq ho hgiven).trans (ht.slots_eq ho hgiven').symm
  obtain ⟨hbytes, hqueue⟩ := List.append_inj hslots (by simpa using hlen)
  refine ⟨?_, hqueue, hoffset.symm.trans hoffset', hpending.symm.trans hpending', ?_⟩
  · rw [hgiven.answers_eq, hgiven'.answers_eq, hbytes]
  · have hqueued := congrArg List.length hqueue
    simp only [queue, SlotRing.contents_length] at hqueued
    have hadd := hgiven.len_eq
    have hadd' := hgiven'.len_eq
    have hpushed : s.feed.stats.pushed = t.feed.stats.pushed := by omega
    rw [hgiven.stats_eq, hgiven'.stats_eq, hpushed, hlen]

/-- The engine, if there is one, has just said that it does not stream. -/
def EngineEnded [TransferEngine E] (s : TransmitSink E) : Prop :=
  ∀ engine, s.engine = some engine → ∃ before, TransferEngine.poll before = (false, engine)

end TransmitSink

open TransmitSink (Moved Asked EngineEnded streamed_refl asked_report)

namespace Call

variable [TransferEngine E] {p q : Progress E} {input : List Sample}

/-! ## Calls that give up -/

theorem askEngine_ended (p : Progress E) :
    Ends askEngine p (fun streams q => streams = false → EngineEnded q.sink) never := by
  simp only [Ends, askEngine]
  cases hengine : p.sink.engine with
  | none =>
      rintro - engine he
      rw [hengine] at he
      cases he
  | some engine =>
      rintro hno _ ⟨rfl⟩
      exact ⟨engine, Prod.ext hno rfl⟩

theorem lookToWork_ended (p : Progress E) :
    Ends lookToWork p (fun _ q => Asked p.sink q.sink)
      (fun _ q => Asked p.sink q.sink ∧ EngineEnded q.sink) := by
  refine .step (sink_eq p) ?_
  by_cases hphase : p.sink.phase = .streaming
  · rw [if_pos hphase]
    refine ((askEngine_ends p).and (askEngine_ended p)).seq ?_ fun _ _ hn => hn.1.elim
    rintro streams q ⟨hq, hended⟩
    cases streams with
    | true => exact hq
    | false => exact ⟨hq.trans (asked_report q.sink _), hended rfl⟩
  · rw [if_neg hphase]
    exact Asked.refl p.sink

/-- A call of `work` that ends without a result waits for good, or its engine has ended. -/
theorem work_ended (input : List Sample) (hp : p.sink.Sound) :
    Ends (work input) p (fun _ _ => True)
      (fun halt q => halt = .waiting ∨ EngineEnded q.sink) := by
  rw [work_eq]
  refine (gap_ends hp.ring).seq_never ?_
  intro _ q hq
  have hring := (hq.sound hp).ring
  refine (awaitingRoom_ends (fun _ s => EngineEnded s) lookToWork_ended none hring).seq ?_ ?_
  · rintro _ r ⟨hr, hroom⟩
    have htake := takeBatch_ends input ((hq.trans hr).sound hp) hroom
    exact htake.imp (fun _ _ _ => trivial) fun _ _ hnever => hnever.elim
  · rintro halt r ⟨_, _, hwaits | ⟨_, hlimit, _⟩ | hended⟩
    · exact .inl hwaits
    · cases hlimit
    · exact .inr hended

theorem workAll_ended (input : List Sample) (hp : p.sink.Sound) :
    Ends (workAll input) p (fun _ _ => True)
      (fun halt q => halt = .waiting ∨
        halt = .failed .engineStopped ∧ p.sink.phase = .streaming ∧ EngineEnded q.sink) := by
  refine (workAll_ends input hp).imp (fun _ _ _ => trivial) ?_
  rintro halt q ⟨rest, r, _, hrounds, hlast⟩
  have hr := hrounds.sound hp
  obtain ⟨hmoved, _, hwaits | ⟨hgone, hphase⟩⟩ := (work_ends rest hr).error hlast
  · exact .inl hwaits
  · rw [hmoved.phase_eq, hrounds.phase_eq hp] at hphase
    rcases (work_ended rest hr).error hlast with hwaits | hended
    · exact .inl hwaits
    · exact .inr ⟨hgone, hphase, hended⟩

end Call

namespace TransmitSink

variable [TransferEngine E] {s t : TransmitSink E} {input : List Sample}
variable {given : List (Drainer × Delivery)}

open Call (Alone attempt workAll)

/-- Drains for whole slots, no more than are queued, and then a call for an input for which they
leave room enough. -/
theorem run_drains_first (h : s.Invariant) {drains : List (Drainer × List Int8)}
    (hwhole : ∀ drain ∈ drains, drain.2.length = s.config.slotSize)
    (hqueued : drains.length ≤ s.queued)
    (henough : s.callsNeeded input ≤ s.config.bufferCount - s.queued + drains.length) :
    ∃ given u, given.map Prod.fst = drains.map Prod.fst ∧ s.feed.Fulfilled u.feed given ∧
      Streamed s input u ∧
      Operation.run s (drains.map (fun drain => .drain drain.1 drain.2) ++ [.workAll input [] []]) =
        (given.map (fun answer => .drained answer.2) ++ [.finished (.ok ())], u) := by
  rw [← h.slotSize_eq] at hwhole
  obtain ⟨t, given, hm, hgiven, hdrainers, hrun⟩ :=
    Operation.run_drains h.toSound hwhole hqueued [.workAll input [] []]
  have ht := hm.invariant h
  have hcount : given.length = drains.length := by
    simpa using congrArg List.length hdrainers
  have hlen := hgiven.len_eq
  obtain ⟨_, hflow, _⟩ := hm.drained.flow h.ring
  have hpushed := hflow.pushed_eq
  have hroom : t.callsNeeded input ≤ t.config.bufferCount - t.queued := by
    have hle := h.ring.len_le
    rw [h.capacity_eq] at hle
    rw [List.length_nil] at hpushed
    rw [hm.callsNeeded_eq, hm.config_eq]
    simp only [queued] at henough hqueued ⊢
    omega
  obtain ⟨q, hwork, _⟩ := Call.workAll_of_room (p := ⟨t, [], []⟩) ht hroom
  have halone : Alone ⟨t, [], []⟩ q :=
    (Alone.workAll ⟨rfl, rfl, rfl⟩ input ht.toSound).ok hwork
  have hperform : (Operation.workAll input [] []).perform t = (.finished (.ok ()), q.sink) := by
    simp only [Operation.perform, Operation.ofCall, attempt, hwork]
  have hfulfils := (Call.workAll_fulfils (p := ⟨t, [], []⟩) input ht.toSound).ok hwork
  have hstreamed := ((streamed_refl h).moved hm).workAll (p := ⟨t, [], []⟩) hwork
  refine ⟨given, q.sink, hdrainers, ?_, hstreamed, ?_⟩
  · simpa using hgiven.trans (hfulfils.of_none halone.deliveries_eq)
  · rw [hrun, Operation.run_of_returns (by rw [hperform]; rfl), hperform]
    rfl

/-- A call of `workAll` during which `given` were drained, whoever drained and whenever: between
calls of `work`, between a look for room and the push behind it, or in a wait. Let them have been
whole slots, and no more than were queued at first. The call fails only if its engine streams no
more. It takes the whole input if that needs no more calls of `work` than there were free slots and
drains; and had the drains all come before the call, they would have been answered the same, and
queue, fill offset, pending bytes and counters would be the same at the end. -/
theorem drains_may_come_first (hr : Reachable s) {pauses : List Pause} {gaps : List (List Move)}
    {reply : Reply E} (he : (Operation.workAll input pauses gaps).perform s = (reply, t))
    (hgiven : t.feed.deliveries = s.feed.deliveries ++ given)
    (hwhole : ∀ answer ∈ given, answer.2.bytes.length = s.config.slotSize)
    (hqueued : given.length ≤ s.queued) :
    (reply = .finished (.ok ()) ∨ reply = .halted .waiting ∨
      reply = .finished (.error .engineStopped) ∧ s.phase = .streaming ∧ EngineEnded t) ∧
    (s.callsNeeded input ≤ s.config.bufferCount - s.queued + given.length →
      reply = .finished (.ok ()) ∧
      ∀ drains : List (Drainer × List Int8), drains.map Prod.fst = given.map Prod.fst →
        (∀ drain ∈ drains, drain.2.length = s.config.slotSize) →
        ∃ u, Operation.run s
            (drains.map (fun drain => .drain drain.1 drain.2) ++ [.workAll input [] []]) =
            (given.map (fun answer => .drained answer.2) ++ [.finished (.ok ())], u) ∧
          u.queue = t.queue ∧ u.fillOffset = t.fillOffset ∧ u.pending = t.pending ∧
          u.feed.stats = t.feed.stats) := by
  have h := hr.invariant
  have hserved : s.feed.Fulfils t.feed → s.feed.Fulfilled t.feed given := fun hfulfils =>
    hfulfils.fulfilled given hgiven (by rwa [h.slotSize_eq]) hqueued
  have hfulfils := Call.workAll_fulfils (p := ⟨s, pauses, gaps⟩) input h.toSound
  simp only [Operation.perform, Operation.ofCall, attempt] at he
  cases hwork : workAll input ⟨s, pauses, gaps⟩ with
  | ok _ q =>
      rw [hwork] at he
      cases he
      refine ⟨.inl rfl, fun henough => ⟨rfl, fun drains hdrainers hsizes => ?_⟩⟩
      have hcount : drains.length = given.length := by
        simpa using congrArg List.length hdrainers
      obtain ⟨given', u, hsame, hgiven', hstreamed', hrun⟩ :=
        run_drains_first h hsizes (hcount.trans_le hqueued) (by rwa [hcount])
      have hstreamed := (streamed_refl h).workAll (p := ⟨s, pauses, gaps⟩) hwork
      have hlen : given'.length = given.length := by
        simpa [hcount] using congrArg List.length hsame
      obtain ⟨hanswers, hfinal⟩ :=
        hstreamed'.unique hstreamed h hgiven' (hserved (hfulfils.ok hwork)) hlen
      refine ⟨u, ?_, hfinal⟩
      have hreplies := congrArg (List.map (Reply.drained (E := E))) hanswers
      rw [List.map_map, List.map_map] at hreplies
      rw [hrun]
      exact congrArg (fun replies => (replies ++ [.finished (.ok ())], u)) hreplies
  | error halt q =>
      obtain rfl : q.sink = t := by
        rw [hwork] at he
        cases halt <;> exact congrArg Prod.snd he
      have hneeds := Call.callsNeeded_of_halted h hwork (hserved (hfulfils.error hwork))
      refine ⟨?_, fun henough => absurd henough (Nat.not_le_of_gt hneeds)⟩
      rcases (Call.workAll_ended input h.toSound).error hwork with rfl | ⟨rfl, hphase, hended⟩
      · rw [hwork] at he
        exact .inr (.inl (congrArg Prod.fst he).symm)
      · rw [hwork] at he
        exact .inr (.inr ⟨(congrArg Prod.fst he).symm, hphase, hended⟩)

/-- The ring is full. One slot is drained in a wait and another between the look for room and the
push, for two samples that make a slot each. -/
theorem drains_may_come_first_at_full_ring :
    ∃ s t u : TransmitSink Steered, Reachable s ∧ s.queued = s.config.bufferCount ∧
      (Operation.workAll [⟨⟨0x3f800000⟩, ⟨0⟩⟩, ⟨⟨0⟩, ⟨0x3f800000⟩⟩]
        [{ moves := [.drain [0, 0]] }] [[], [.drain [5, 5]]]).perform s = (.finished (.ok ()), t) ∧
      Operation.run s [.drain .other [1, 1], .drain .other [2, 2],
        .workAll [⟨⟨0x3f800000⟩, ⟨0⟩⟩, ⟨⟨0⟩, ⟨0x3f800000⟩⟩] [] []] =
        ([.drained ⟨.proceed, [-127, 0]⟩, .drained ⟨.proceed, [0, -127]⟩, .finished (.ok ())], u) ∧
      u.queue = t.queue ∧ u.fillOffset = t.fillOffset ∧ u.pending = t.pending ∧
      u.feed.stats = t.feed.stats := by
  have hmade := Reachable.make (rfl : make { bufferCount := 2, slotSize := 2 }
    (none : Option Steered) = .ok _)
  have hfull := Reachable.workAll (p := ⟨_, [], []⟩) hmade
    (rfl : attempt (workAll [⟨⟨0xbf800000⟩, ⟨0⟩⟩, ⟨⟨0⟩, ⟨0xbf800000⟩⟩]) ⟨_, [], []⟩ = .ok _ _)
  obtain ⟨_, henough⟩ := @drains_may_come_first Steered _ _ _ _
    [(.other, ⟨.proceed, [-127, 0]⟩), (.other, ⟨.proceed, [0, -127]⟩)] hfull _ _ _
    (rfl : (Operation.workAll [⟨⟨0x3f800000⟩, ⟨0⟩⟩, ⟨⟨0⟩, ⟨0x3f800000⟩⟩]
      [{ moves := [.drain [0, 0]] }] [[], [.drain [5, 5]]]).perform _ = (_, _))
    (by decide +kernel) (by decide +kernel) (by decide +kernel)
  obtain ⟨_, hdrains⟩ := henough (by decide +kernel)
  obtain ⟨u, hrun, hfinal⟩ := hdrains [(.other, [1, 1]), (.other, [2, 2])] rfl (by decide +kernel)
  exact ⟨_, _, u, hfull, by decide +kernel, rfl, hrun, hfinal⟩

end TransmitSink

end IqTransmit
