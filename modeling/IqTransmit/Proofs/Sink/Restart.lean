import IqTransmit.Engine.Steered
import IqTransmit.Proofs.Engine.Start
import IqTransmit.Proofs.Sink.Lockstep

/-!
A restart is as good as a fresh sink. A sink that is started again after a stop cannot be told from
one that was just made, except by its counters and its journal, and what an earlier session has left
is never drained.
-/

namespace IqTransmit

variable {E : Type}

/-! ### What is noted from a baseline on -/

namespace Feed

variable {base : Baseline} {f g : Feed}

/-- What drains answer are the slots that they take, and silence. -/
theorem answers_of_events (events : List Event) :
    Answers (events.filterMap Event.sentSlot?) (events.filterMap Event.delivery?) := by
  induction events with
  | nil => exact .nil
  | cons event rest ih =>
      cases event with
      | reported notice => exact ih
      | queued slot => exact ih
      | sent drainer slot => exact .slot drainer slot ih
      | silent drainer status size => exact .silence drainer status size ih

/-- Both sides note the same from the baseline on. What was sent since was queued since. -/
theorem Alike.noted (h : Alike base f g) (start fresh : Feed)
    (hstart : base.journal = start.journal) (hfresh : base.fresh = fresh.journal) (hnone : fresh.deliveries = [])
    (hqueued : fresh.queuedSlots = []) (hsent : fresh.sentSlots = []) :
    f.deliveries = start.deliveries ++ g.deliveries ∧
      f.queuedSlots = start.queuedSlots ++ g.queuedSlots ∧
      f.sentSlots = start.sentSlots ++ g.sentSlots ∧
      Answers g.sentSlots g.deliveries ∧ g.sentSlots.Sublist g.queuedSlots := by
  obtain ⟨since, hf, hg⟩ := h.since
  have hsplit {α : Type} (pick : Event → Option α)
      (hshift : ∀ event : Event, pick (event.shift base.stats) = pick event)
      (hpick : fresh.journal.reverse.filterMap pick = []) :
      f.journal.reverse.filterMap pick = start.journal.reverse.filterMap pick ++
        g.journal.reverse.filterMap pick := by
    rw [hf, hg, hstart, hfresh]
    simp only [List.reverse_append, List.filterMap_append, hpick, List.nil_append,
      ← List.map_reverse, List.filterMap_map]
    congr 2
    funext event
    exact hshift event
  refine ⟨hsplit _ (Event.shift_delivery? _) hnone, hsplit _ (Event.shift_queuedSlot? _) hqueued,
    hsplit _ (Event.shift_sentSlot? _) hsent, answers_of_events _, ?_⟩
  exact (List.sublist_append_left _ _).trans h.inOrder

end Feed

namespace TransmitSink

variable {s t fresh : TransmitSink E} {engine after : E}

/-! ### The two sinks after their starts -/

theorem Invariant.validate_eq (h : s.Invariant) : s.config.validate = .ok () := by
  have hcount := h.ring.capacity_pos
  have hsize := h.ring.slotSize_pos
  have heven := h.slotSize_even
  rw [h.capacity_eq] at hcount
  rw [h.slotSize_eq] at hsize heven
  simp only [SinkConfig.validate]
  rw [if_neg (by omega), if_neg (by omega)]

theorem Invariant.store_le (h : s.Invariant) :
    s.config.bufferCount * s.config.slotSize ≤ maxStore := by
  have hle := h.ring.store_le
  rw [h.ring.store_size, h.capacity_eq, h.slotSize_eq] at hle
  exact hle

/-- A sink into which nothing was put yet. -/
structure Unused (s : TransmitSink E) : Prop extends Fresh s where
  stats_eq : s.feed.stats = {}
  queuedSlots_eq : s.feed.queuedSlots = []
  sentSlots_eq : s.feed.sentSlots = []

theorem unused_of_make {config : SinkConfig} {engine : Option E} (h : make config engine = .ok s) :
    s.Unused := by
  simp only [make] at h
  split at h
  · cases h
  · split at h
    · cases h
    · next ring hring =>
        obtain ⟨_, _, _, rfl⟩ := SlotRing.make_eq_ok_iff.mp hring
        split at h
        · cases h
          exact ⟨⟨rfl, rfl, rfl⟩, rfl, rfl, rfl⟩
        · cases h
          exact ⟨⟨rfl, rfl, rfl⟩, rfl, rfl, rfl⟩

/-- Beside any sink there is a fresh one with its settings, to which its converter can be given. -/
theorem Invariant.exists_fresh (hs : s.Invariant) (engine : E) :
    ∃ fresh : TransmitSink E, make s.config (some engine) = .ok fresh ∧
      Invariant { fresh with converter := s.converter } ∧
      Unused { fresh with converter := s.converter } ∧
      fresh.engine = some engine ∧ fresh.phase = .idle ∧ fresh.config = s.config := by
  obtain ⟨fresh, hmade, hbound, hidle, hconfig, _⟩ :=
    make_of_valid hs.validate_eq hs.store_le (some engine)
  have hnew := invariant_make hmade
  have hunused := unused_of_make hmade
  refine ⟨fresh, hmade, ?_, ?_, hbound, hidle, hconfig⟩
  · exact { hnew with toSound := hnew.toSound.of_ring hnew.ring rfl rfl rfl }
  · exact { hunused with }

/-- A stopped sink and an unused one, with the same settings, are alike once both are started. -/
theorem alike_of_started (after : E) (hs : s.Invariant) (hphase : s.phase = .stopped)
    (ht : fresh.Invariant) (hunused : fresh.Unused) (hidle : fresh.phase = .idle)
    (hconfig : fresh.config = s.config) (hconverter : fresh.converter = s.converter) :
    (s.startedWith after).Alike ⟨s.feed.stats, (s.startedWith after).feed.journal,
      (fresh.startedWith after).feed.journal⟩ 0 (fresh.startedWith after) := by
  have hinv (u : TransmitSink E) (hu : u.Invariant) : (u.startedWith after).Invariant :=
    (asked_report _ _).invariant (invariant_of_start hu after nofun)
  have hsx := hinv s hs
  have htx := hinv fresh ht
  have hring : s.feedAtStart.ring = s.feed.ring.clear :=
    feedAtStart_ring_of_not_idle (by rw [hphase]; decide)
  have hring' : fresh.feedAtStart.ring = fresh.feed.ring := feedAtStart_ring_of_idle hidle
  refine ⟨⟨hsx.ring, htx.ring, ?_, ?_, ?_, rfl, ?_, ⟨[], rfl, rfl⟩, ?_⟩, rfl, hconverter.symm, rfl,
    rfl, hconfig.symm, ?_, rfl, le_rfl⟩
  · exact (hsx.capacity_eq.trans (congrArg _ hconfig.symm)).trans htx.capacity_eq.symm
  · exact (hsx.slotSize_eq.trans (congrArg _ hconfig.symm)).trans htx.slotSize_eq.symm
  · change s.feedAtStart.ring.contents = fresh.feedAtStart.ring.contents
    rw [hring, hring', SlotRing.contents_clear]
    exact hunused.queue_eq.symm
  · change s.feed.stats = s.feed.stats + fresh.feed.stats
    rw [hunused.stats_eq]
    rfl
  · have hsent : (fresh.startedWith after).feed.sentSlots = [] :=
      (Feed.note_sentSlots _ _).trans ((List.append_nil _).trans hunused.sentSlots_eq)
    have hempty : (fresh.startedWith after).feed.ring.contents = [] := by
      change fresh.feedAtStart.ring.contents = []
      rw [hring']
      exact hunused.queue_eq
    rw [hsent, hempty]
    exact List.nil_sublist _
  · have hlen := hsx.scratch_length.trans (hsx.slotSize_eq.trans (congrArg _ hconfig.symm))
    exact hlen.trans (htx.scratch_length.trans htx.slotSize_eq).symm

variable [TransferEngine E]

/-- A sink that is started again after a stop does from then on what a fresh one does that has the
same settings and engine: every run of calls has the same answers and leaves the same state, and
drains are given the same. The counters go on from where they were. Nothing is sent that was not
queued since the start. -/
theorem restart_as_fresh (hr : Reachable s) (hphase : s.phase = .stopped)
    (hstart : s.start = (.ok (), t)) :
    ∃ (engine : E) (fresh started : TransmitSink E), s.engine = some engine ∧
      make s.config (some engine) = .ok fresh ∧
      ({ fresh with converter := s.converter } : TransmitSink E).start = (.ok (), started) ∧
      ∀ (operations : List (Operation E)) (replies : List (Reply E)) (u : TransmitSink E),
        Operation.run t operations = (replies, u) →
        ∃ v, Operation.run started operations = (replies, v) ∧
          u.engine = v.engine ∧ u.phase = v.phase ∧ u.fillOffset = v.fillOffset ∧
          u.queue = v.queue ∧ u.pending = v.pending ∧ u.converter = v.converter ∧
          u.config = v.config ∧ u.feed.stopping = v.feed.stopping ∧
          u.feed.stats = t.feed.stats + v.feed.stats ∧
          u.feed.deliveries = t.feed.deliveries ++ v.feed.deliveries ∧
          u.feed.queuedSlots = t.feed.queuedSlots ++ v.feed.queuedSlots ∧
          u.feed.sentSlots = t.feed.sentSlots ++ v.feed.sentSlots ∧
          Feed.Answers v.feed.sentSlots v.feed.deliveries ∧
          v.feed.sentSlots.Sublist v.feed.queuedSlots := by
  have hs := hr.invariant
  have hnot : s.phase ≠ .streaming := by
    rw [hphase]
    decide
  obtain ⟨engine, after, hengine, hsize, haccepted, rfl⟩ := start_eq_ok hnot hstart
  obtain ⟨fresh, hmade, hinv, hunused, hbound, hidle, hconfig⟩ := hs.exists_fresh engine
  have hready : fresh.phase ≠ .streaming := by
    rw [hidle]
    decide
  have hbegun := start_of_accepted (s := { fresh with converter := s.converter }) hready hbound
    (hsize.trans (congrArg _ hconfig.symm)) haccepted
  have halike := alike_of_started after hs hphase hinv hunused hidle hconfig rfl
  refine ⟨engine, fresh, _, hengine, hmade, hbegun, ?_⟩
  intro operations replies u hrun
  have hstarted : Reachable (s.startedWith after) := by
    have hnext := hr.start
    rw [hstart] at hnext
    exact hnext
  obtain ⟨hreplies, known, h⟩ := Operation.run_alike operations hstarted halike
  rw [hrun] at hreplies h
  simp only at hreplies h
  obtain ⟨hdeliveries, hqueued, hsent, hanswers, hsub⟩ :=
    h.feed.noted (s.startedWith after).feed _ rfl rfl
      ((Feed.report_deliveries _ _).trans hunused.deliveries_eq)
      ((Feed.note_queuedSlots _ _).trans ((List.append_nil _).trans hunused.queuedSlots_eq))
      ((Feed.note_sentSlots _ _).trans ((List.append_nil _).trans hunused.sentSlots_eq))
  exact ⟨_, Prod.ext hreplies.symm rfl, h.engine_eq, h.phase_eq, h.fillOffset_eq, h.queue_eq,
    h.pending_eq, h.converter_eq, h.config_eq, h.feed.stopping_eq, h.feed.stats_eq, hdeliveries,
    hqueued, hsent, hanswers, hsub⟩

/-- A stop comes to its limit at a full ring. The slot that is left in the ring is dropped by the
start, and a drain after it is answered as by a fresh sink. -/
theorem restart_drops_stale_slot :
    ∃ (s t fresh started : TransmitSink Steered) (engine : Steered),
      Reachable s ∧ s.phase = .stopped ∧ s.queue = [[127, 0, 127, 0]] ∧ s.start = (.ok (), t) ∧
        s.engine = some engine ∧ make s.config (some engine) = .ok fresh ∧
        ({ fresh with converter := s.converter } : TransmitSink Steered).start = (.ok (), started) ∧
        (Operation.run t [.drain .other [1, 2, 3, 4]]).1 =
          (Operation.run started [.drain .other [1, 2, 3, 4]]).1 := by
  have hmade := Reachable.make
    (rfl : make { bufferCount := 1, slotSize := 4, stopTimeout := some ⟨1000⟩ }
      (some ({ transferSize := 4 } : Steered)) = .ok _)
  have hfilled := Operation.perform_reachable hmade.start
    (.work (List.replicate 2 ⟨⟨0x3f800000⟩, ⟨0⟩⟩) [] []) (by decide +kernel)
  have hstopped := Operation.perform_reachable hfilled
    (.stop [{ elapsed := ⟨1000⟩ }] []) (by decide +kernel)
  obtain ⟨s, hr, hphase, hqueue, hresult⟩ : ∃ s : TransmitSink Steered, Reachable s ∧
      s.phase = .stopped ∧ s.queue = [[127, 0, 127, 0]] ∧ s.start.1 = .ok () :=
    ⟨_, hstopped, by decide +kernel, by decide +kernel, by decide +kernel⟩
  have hstart : s.start = (.ok (), s.start.2) := Prod.ext hresult rfl
  obtain ⟨engine, fresh, started, hengine, hfresh, hbegun, hsame⟩ :=
    restart_as_fresh hr hphase hstart
  obtain ⟨_, hrun, _⟩ := hsame [.drain .other [1, 2, 3, 4]] _ _ rfl
  exact ⟨s, _, fresh, started, engine, hr, hphase, hqueue, hstart, hengine, hfresh, hbegun,
    (congrArg Prod.fst hrun).symm⟩

end TransmitSink

end IqTransmit
