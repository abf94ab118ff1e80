import IqTransmit.Proofs.Sink.Accounting

/-!
What a stop that returns without an error has delivered. All six of its slots were queued, but the
last wait ends as soon as the engine streams no more, for whatever reason. If a drain was told of
the end of the stream then the ring was empty by that time, and everything was delivered. An engine
that ends by itself is told nothing: what the ring still held is lost, and the stop does not say so.
-/

namespace IqTransmit

variable {E : Type}

namespace Feed

variable {f g : Feed}

/-- Once a drain of a whole slot is told of the end, the ring is empty and stays so. -/
theorem Drained.empty_of_terminate (hd : Drained f g) (hf : f.ring.Sound) :
    ∃ given, g.deliveries = f.deliveries ++ given ∧
      ∀ drainer bytes, (drainer, ⟨.terminate, bytes⟩) ∈ given →
        bytes.length = f.ring.slotSize → g.ring.contents = [] := by
  induction hd with
  | refl => exact ⟨[], (List.append_nil _).symm, fun _ _ hnil => absurd hnil List.not_mem_nil⟩
  | report notice _ ih =>
      obtain ⟨given, hgiven, hempty⟩ := ih
      exact ⟨given, (report_deliveries _ _).trans hgiven, hempty⟩
  | @drain g h caller dest delivery hfg he ih =>
      obtain ⟨given, hgiven, hempty⟩ := ih
      obtain ⟨popped, hflow, _⟩ := hfg.flow hf
      obtain ⟨answer, g', he', hnoted, _⟩ := drain_noted hflow.sound caller dest
      rw [he] at he'
      cases he'
      refine ⟨given ++ [(caller, delivery)], by rw [hnoted, hgiven, List.append_assoc], ?_⟩
      intro drainer bytes hmem hlen
      rcases drain_cases hflow.sound caller dest with ⟨hs, hd⟩ | ⟨hs, _, hd⟩ | ⟨_, _, hd⟩
      · -- a slot was there, so none of the drains before was told of the end
        rw [he] at hd
        cases hd
        rcases List.mem_append.mp hmem with hmem | hmem
        · have hnone := (SlotRing.contents_eq_nil_iff _).mp (hempty drainer bytes hmem hlen)
          exact absurd (hnone.symm.trans hs.2) nofun
        · cases List.mem_singleton.mp hmem
      · rw [he] at hd
        cases hd
        rcases List.mem_append.mp hmem with hmem | hmem
        · exact hempty drainer bytes hmem hlen
        · cases List.mem_singleton.mp hmem
          refine (SlotRing.contents_eq_nil_iff _).mpr ?_
          rw [List.length_replicate, ← hflow.slotSize_eq] at hlen
          cases hring : g.ring.isEmpty with
          | true => exact hring
          | false => exact absurd ⟨hlen, hring⟩ hs
      · rw [he] at hd
        cases hd
        rcases List.mem_append.mp hmem with hmem | hmem
        · exact hempty drainer bytes hmem hlen
        · cases List.mem_singleton.mp hmem

end Feed

/-- What a stop makes of the result of the engine's. -/
def stopResult : Except String Unit → Except SinkError Unit
  | .ok () => .ok ()
  | .error problem => .error (.hardwareStop problem)

namespace Call

variable {α β : Type} {p q : Progress E} {now : Instant}

theorem bind_eq_ok {call : Call E α} {f : α → Call E β} {b : β}
    (he : (call >>= f) p = .ok b q) : ∃ a r, call p = .ok a r ∧ f a r = .ok b q := by
  cases hcall : call p with
  | ok a r =>
      rw [bind_of_ok hcall] at he
      exact ⟨a, r, rfl, he⟩
  | error halt r =>
      rw [bind_of_error hcall] at he
      cases he

variable [TransferEngine E]

/-- After a flush that went well or not, a stop ends the engine. -/
theorem attempt_stop_of_flushed (hphase : p.sink.phase = .streaming)
    (hengine : p.sink.engine.isSome = true) {flushed : Except SinkError Unit}
    (he : attempt (flushAndWait now) { p with sink := { p.sink with phase := .stopping } } =
      .ok flushed q) : attempt (stopAt now) p = attempt (stopEngine flushed) q := by
  simp only [attempt, stop_of_streaming hphase hengine]
  rw [bind_of_ok he]

/-- The three parts of a stop that returns without an error. -/
theorem stop_eq_ok (hp : p.sink.Sound) (hphase : p.sink.phase = .streaming)
    (hengine : p.sink.engine.isSome = true) (he : stopAt now p = .ok () q) :
    ∃ g t, queueTail { p with sink := { p.sink with phase := .stopping } } = .ok () g ∧
      awaitEnd { g with sink := { g.sink with feed.stopping := true } } = .ok () t ∧
      stopEngine (.ok ()) t = .ok () q := by
  rw [stop_of_streaming hphase hengine] at he
  obtain ⟨flushed, t, hflush, hended⟩ := bind_eq_ok he
  have hsound := hp.withPhase .stopping
  obtain ⟨queued, hend⟩ :=
    (flushAndWait_ends (p := { p with sink := { p.sink with phase := .stopping } }) now
      hsound).ok hflush
  obtain ⟨_, rfl⟩ := (stopEngine_ends flushed hend.accounted.sound.ring).ok hended
  rcases attempt_eq_ok hflush with ⟨_, _, hflush⟩ | ⟨_, hfailed, _⟩
  · have htail := flushAndWait_eq_ok hflush
    rw [flush_eq] at htail
    obtain ⟨_, g, htail, hstream⟩ := bind_eq_ok htail
    obtain ⟨_, _, hupdate, hwait⟩ := bind_eq_ok hstream
    cases hupdate
    exact ⟨g, t, htail, hwait, hended⟩
  · cases hfailed

end Call

namespace TransmitSink

variable [TransferEngine E] {sink : TransmitSink E}

open Call (attempt stopAt)

/-- A stop that returns without an error has queued all that it was to queue. If any drain during
it that asked for a whole slot was told of the end of the stream, the ring is empty: everything was
sent. -/
theorem stop_delivers_if_told (hr : Reachable sink) (hphase : sink.phase = .streaming)
    {now : Instant} {pauses : List Pause} {gaps : List (List Move)} {q : Progress E}
    (he : attempt (stopAt now) ⟨sink, pauses, gaps⟩ = .ok (.ok ()) q) :
    ∃ popped given,
      q.sink.feed.sentSlots = sink.feed.sentSlots ++ popped ∧
        q.sink.feed.deliveries = sink.feed.deliveries ++ given ∧
        popped ++ q.sink.queue = sink.queue ++
          (sink.pending ++ List.replicate (sink.config.slotSize - sink.fillOffset) 0) ::
            List.replicate 5 (List.replicate sink.config.slotSize 0) ∧
        ∀ drainer bytes, (drainer, ⟨.terminate, bytes⟩) ∈ given →
          bytes.length = sink.config.slotSize → q.sink.queue = [] := by
  have h := hr.invariant
  have hsound : Sound { sink with phase := .stopping } :=
    h.toSound.of_ring h.ring rfl rfl rfl
  rcases Call.attempt_eq_ok he with ⟨_, _, he⟩ | ⟨_, hfailed, _⟩
  swap
  · cases hfailed
  obtain ⟨g, t, htail, hwait, hended⟩ :=
    Call.stop_eq_ok (p := ⟨sink, pauses, gaps⟩) h.toSound hphase (h.bound_of_streaming hphase) he
  have hqueued := (Call.queueTail_ends (p := ⟨{ sink with phase := .stopping }, pauses, gaps⟩)
    hsound).ok htail
  obtain ⟨sent, hflow⟩ := hqueued.flow
  have hawait := (Call.awaitEnd_ends (p := { g with sink := { g.sink with feed.stopping := true } })
    hqueued.sound.ring).ok hwait
  have hstopped :=
    ((Call.stopEngine_ends (.ok ()) (hawait.drained.sound hqueued.sound.ring)).ok hended).1
  have hmoved := (hawait.withPhase .stopped).trans hstopped
  obtain ⟨more, hmore, _⟩ := hmoved.drained.flow hqueued.sound.ring
  obtain ⟨given, hgiven, _, hproceed⟩ := hflow.answers
  obtain ⟨given', hgiven', hempty⟩ := hmoved.drained.empty_of_terminate hqueued.sound.ring
  refine ⟨sent ++ more, given ++ given', ?_, ?_, ?_, ?_⟩
  · rw [← List.append_assoc, ← hflow.sent_eq]
    exact hmore.sent_eq
  · rw [← List.append_assoc, ← hgiven]
    exact hgiven'
  · have hkept : g.sink.queue = more ++ q.sink.queue := by
      simpa [queue] using hmore.contents_eq
    rw [List.append_assoc, ← hkept, ← h.lastSlots_eq]
    exact hflow.contents_eq.symm
  · intro drainer bytes hmem hlen
    rcases List.mem_append.mp hmem with hmem | hmem
    · -- before the last push no drain was told of the end
      have hflows : g.sink.feed.stopping = false :=
        hqueued.stopping_eq.trans (h.flowing (by rw [hphase]; decide))
      cases hproceed hflows _ hmem
    · refine hempty drainer bytes hmem (hlen.trans ?_)
      exact (hflow.slotSize_eq.trans h.slotSize_eq).symm

theorem afterStop_eq {α : Type} (view : Progress Steered → α) {a : α} {p : Progress Steered}
    (h : (afterStop p).map view = some a) :
    ∃ q, attempt (stopAt ⟨0⟩) p = .ok (.ok ()) q ∧ view q = a := by
  obtain ⟨q, hq, hview⟩ := Option.map_eq_some_iff.mp h
  obtain ⟨r, hr⟩ := attempt_stop_eq (p := p) (by rw [hq]; rfl)
  rw [afterStop, hr] at hq
  exact ⟨r, hr, Option.some.inj hq ▸ hview⟩

/-- A sample is pending; the engine drains one transfer at each wait, up to the end. -/
theorem stop_delivers_one_sample :
    ∃ (sink : TransmitSink Steered) (pauses : List Pause) (q : Progress Steered),
      Reachable sink ∧ sink.phase = .streaming ∧ sink.pending = [127, 0] ∧
        attempt (stopAt ⟨0⟩) ⟨sink, pauses, []⟩ = .ok (.ok ()) q ∧ q.sink.queue = [] := by
  have hmade := Reachable.make (rfl : make { bufferCount := 2, slotSize := 4 }
    (some ({ transferSize := 4, batch := 1 } : Steered)) = .ok _)
  have hfilled := Reachable.work (p := ⟨_, [], []⟩) hmade.start
    (rfl : attempt (Call.work [⟨⟨0x3f800000⟩, ⟨0⟩⟩]) ⟨_, [], []⟩ = .ok _ _)
  obtain ⟨sink, hr, hphase, hpending, hsize, hnone, hrun⟩ : ∃ sink : TransmitSink Steered,
      Reachable sink ∧ sink.phase = .streaming ∧ sink.pending = [127, 0] ∧
        sink.config.slotSize = 4 ∧ sink.feed.deliveries = [] ∧
        (afterStop ⟨sink, List.replicate 8 { moves := [.engine] }, []⟩).map
          (fun q => q.sink.feed.deliveries.getLast?) =
            some (some (.engine, ⟨.terminate, [0, 0, 0, 0]⟩)) :=
    ⟨_, hfilled, rfl, rfl, rfl, rfl, by decide +kernel⟩
  obtain ⟨q, hq, hlast⟩ := afterStop_eq _ hrun
  obtain ⟨_, given, _, hgiven, _, hempty⟩ := stop_delivers_if_told hr hphase hq
  rw [hnone, List.nil_append] at hgiven
  refine ⟨sink, _, q, hr, hphase, hpending, hq, ?_⟩
  exact hempty .engine [0, 0, 0, 0] (hgiven ▸ List.mem_of_getLast? hlast) hsize.symm

/-- The engine has ended by itself, and the ring has room for all that a stop queues: the stop
returns without an error, and none of it was sent. -/
theorem stop_loses_one_sample :
    ∃ (sink : TransmitSink Steered) (q : Progress Steered),
      Reachable sink ∧ sink.phase = .streaming ∧
        attempt (stopAt ⟨0⟩) ⟨sink, [], []⟩ = .ok (.ok ()) q ∧ q.sink.feed.sentSlots = [] ∧
        q.sink.queue = [127, 0, 0, 0] :: List.replicate 5 [0, 0, 0, 0] := by
  have hmade := Reachable.make (rfl : make { bufferCount := 8, slotSize := 4 }
    (some ({ transferSize := 4 } : Steered)) = .ok _)
  have hfilled := Reachable.work (p := ⟨_, [], []⟩) hmade.start
    (rfl : attempt (Call.work [⟨⟨0x3f800000⟩, ⟨0⟩⟩]) ⟨_, [], []⟩ = .ok _ _)
  have hdead := Reachable.act (p := ⟨_, [], []⟩) hfilled
    (rfl : Call.act (fun e => .finish () e.halt) () ⟨_, [], []⟩ = .ok _ _)
  obtain ⟨sink, hr, hphase, hrun⟩ : ∃ sink : TransmitSink Steered,
      Reachable sink ∧ sink.phase = .streaming ∧
        (afterStop ⟨sink, [], []⟩).map (fun q => (q.sink.feed.sentSlots, q.sink.queue)) =
          some ([], [127, 0, 0, 0] :: List.replicate 5 [0, 0, 0, 0]) :=
    ⟨_, hdead, rfl, by decide +kernel⟩
  obtain ⟨q, hq, hslots⟩ := afterStop_eq _ hrun
  obtain ⟨hsent, hqueue⟩ := Prod.mk.inj hslots
  exact ⟨sink, q, hr, hphase, hq, hsent, hqueue⟩

end TransmitSink

end IqTransmit
