import IqTransmit.Proofs.Sink.Integrity
import IqTransmit.Proofs.Sink.Restart

/-!
Filling ahead of the first start. The slots that are whole when a sink starts stay queued, and they
are sent before anything that is taken later. A slot that is filled in part by then is dropped, so
that the stream has no gap just where the filling has ended with a slot.
-/

namespace IqTransmit.TransmitSink

variable {E : Type} {origin s t u : TransmitSink E} {ahead taken : List Sample} {after : E}

/-! ### A start of an idle sink -/

theorem startedWith_sentSlots (s : TransmitSink E) (after : E) :
    (s.startedWith after).feed.sentSlots = s.feed.sentSlots :=
  (Feed.note_sentSlots _ _).trans (List.append_nil _)

theorem startedWith_queue (hidle : s.phase = .idle) (after : E) :
    (s.startedWith after).queue = s.queue := by
  change s.feedAtStart.ring.contents = s.feed.ring.contents
  rw [feedAtStart_ring_of_idle hidle]

theorem startedWith_pending (s : TransmitSink E) (after : E) :
    (s.startedWith after).pending = [] := rfl

theorem startedWith_stream (hidle : s.phase = .idle) (after : E) (taken : List Sample) :
    (s.startedWith after).stream taken = s.queue.flatten ++ Cs8.bytesOf taken := by
  rw [stream, startedWith_queue hidle, startedWith_pending, List.append_nil]

variable [TransferEngine E]

/-- Neither filling nor draining starts or stops a sink. -/
theorem Filled.phase_eq (hf : Filled origin taken s) (h : origin.Invariant) :
    s.phase = origin.phase := by
  induction hf with
  | refl => rfl
  | drain _ he ih => exact (moved_of_drain he).phase_eq.trans ih
  | act hf he ih =>
      exact ((Call.act_ends _ _ (hf.streamed h).invariant.ring).ok he).phase_eq.trans ih
  | work hf he ih =>
      exact ((Call.work_ends _ (hf.streamed h).invariant.toSound).ok he).phase_eq.trans ih
  | rounds hf hr ih => exact (hr.phase_eq (hf.streamed h).invariant.toSound).trans ih
  | workAll hf he ih =>
      have hs := (hf.streamed h).invariant.toSound
      exact (((Call.workAll_ends _ hs).ok he).phase_eq hs).trans ih
  | gaveUp hf he ih =>
      have hs := (hf.streamed h).invariant.toSound
      exact ((Call.work_ends _ hs).error he).moved.phase_eq.trans ih

/-- A sink that is filled before its first start sends this, then what is taken later, as one
stream. It lacks only the bytes that were pending at the start, which are less than a slot, and none
where the filling has ended with a slot. -/
theorem start_keeps_whole_slots (hr : Reachable origin) (hidle : origin.phase = .idle)
    (hahead : Filled origin ahead s) (hstart : s.start = (.ok (), t)) (hf : Filled t taken u) :
    ∃ before later kept sent,
      Cs8.Converter.scalar.convert ahead (2 * ahead.length) = .ok before ∧
      Cs8.Converter.scalar.convert taken (2 * taken.length) = .ok later ∧
      origin.queue.flatten ++ origin.pending ++ before = kept ++ s.pending ∧
      s.pending.length < origin.config.slotSize ∧
      kept.length = (kept ++ s.pending).length / origin.config.slotSize *
        origin.config.slotSize ∧
      (origin.config.slotSize ∣ (kept ++ s.pending).length → s.pending = []) ∧
      u.feed.sentSlots = origin.feed.sentSlots ++ sent ∧
      sent.flatten ++ u.queue.flatten ++ u.pending = kept ++ later := by
  have ho := hr.invariant
  have hs := hahead.streamed ho
  have hphase : s.phase = .idle := (hahead.phase_eq ho).trans hidle
  have hnot : s.phase ≠ .streaming := by
    rw [hphase]
    decide
  have ht : t.Invariant := by
    have hnext := invariant_start hs.invariant
    rwa [hstart] at hnext
  obtain ⟨_, after, _, _, _, rfl⟩ := start_eq_ok hnot hstart
  obtain ⟨sent, _, hsent, _, _, hstream, hgroups, _, hoffset⟩ := hs.groups_eq ho
  obtain ⟨sent', _, hsent', _, _, hstream', _⟩ := (hf.streamed ht).groups_eq ht
  rw [startedWith_stream hphase] at hstream'
  have hpos : 0 < origin.config.slotSize := by
    rw [← ho.slotSize_eq]
    exact ho.ring.slotSize_pos
  have hpending : s.pending.length = s.fillOffset := hs.invariant.toSound.pending_length
  have hlt : s.pending.length < origin.config.slotSize := by
    have hfill := hs.invariant.fillOffset_lt
    rwa [hs.invariant.slotSize_eq, hs.config_eq, ← hpending] at hfill
  refine ⟨Cs8.bytesOf ahead, Cs8.bytesOf taken, sent.flatten ++ s.queue.flatten, sent ++ sent',
    Cs8.Converter.scalar.convert_of_size_eq rfl, Cs8.Converter.scalar.convert_of_size_eq rfl,
    hstream.symm, hlt, ?_, ?_, ?_, ?_⟩
  · rw [hstream, ← List.flatten_append, ← hgroups, flatten_groups hpos,
      List.length_take_of_le (Nat.div_mul_le_self _ _)]
  · intro hdvd
    rw [hstream] at hdvd
    apply List.length_eq_zero_iff.mp
    rw [hpending, ← hoffset]
    exact Nat.mod_eq_zero_of_dvd hdvd
  · rw [hsent', startedWith_sentSlots, hsent, List.append_assoc]
  · calc (sent ++ sent').flatten ++ u.queue.flatten ++ u.pending
        = sent.flatten ++ (sent'.flatten ++ u.queue.flatten ++ u.pending) := by
          simp only [List.flatten_append, List.append_assoc]
      _ = sent.flatten ++ s.queue.flatten ++ Cs8.bytesOf taken := by
          rw [hstream', List.append_assoc]

/-- Three samples are taken before the start and two after it, with slots of two: the third one is
not sent. -/
theorem start_keeps_first_slot_of_three_samples :
    ∃ (origin s t u : TransmitSink Steered) (sent : List Slot),
      Reachable origin ∧
      Filled origin [⟨⟨0x3f800000⟩, ⟨0⟩⟩, ⟨⟨0xbf800000⟩, ⟨0⟩⟩, ⟨⟨0⟩, ⟨0x3f800000⟩⟩] s ∧
      s.start = (.ok (), t) ∧
      Filled t [⟨⟨0⟩, ⟨0xbf800000⟩⟩, ⟨⟨0x3f800000⟩, ⟨0x3f800000⟩⟩] u ∧
      s.pending = [0, 127] ∧
      u.feed.sentSlots = origin.feed.sentSlots ++ sent ∧
      sent.flatten ++ u.queue.flatten ++ u.pending = [127, 0, -127, 0] ++ [0, -127, 127, 127] := by
  have hmade := Reachable.make (rfl : make { bufferCount := 8, slotSize := 4 }
    (some ({ transferSize := 4 } : Steered)) = .ok _)
  have hstart {o : TransmitSink Steered} (_ : Reachable o) : Filled o [] o := .refl
  have hahead := Filled.workAll (p := ⟨_, [], []⟩) (hstart hmade)
    (rfl : Call.workAll [⟨⟨0x3f800000⟩, ⟨0⟩⟩, ⟨⟨0xbf800000⟩, ⟨0⟩⟩, ⟨⟨0⟩, ⟨0x3f800000⟩⟩]
      ⟨_, [], []⟩ = .ok _ _)
  have hstarted {o s : TransmitSink Steered} {ahead : List Sample} (_ : Filled o ahead s) :
      Filled s.start.2 [] s.start.2 := .refl
  have hlater := Filled.workAll (p := ⟨_, [], []⟩) (hstarted hahead)
    (rfl : Call.workAll [⟨⟨0⟩, ⟨0xbf800000⟩⟩, ⟨⟨0x3f800000⟩, ⟨0x3f800000⟩⟩]
      ⟨_, [], []⟩ = .ok _ _)
  have hdrained := Filled.drain hlater
    (rfl : TransmitSink.drain .other [0, 0, 0, 0] _ = .ok _ _)
  obtain ⟨origin, s, u, hr, hidle, hempty, hs, hpending, hresult, hu⟩ :
      ∃ origin s u : TransmitSink Steered, Reachable origin ∧ origin.phase = .idle ∧
        origin.queue.flatten ++ origin.pending = [] ∧
        Filled origin [⟨⟨0x3f800000⟩, ⟨0⟩⟩, ⟨⟨0xbf800000⟩, ⟨0⟩⟩, ⟨⟨0⟩, ⟨0x3f800000⟩⟩] s ∧
        s.pending = [0, 127] ∧ s.start.1 = .ok () ∧
        Filled s.start.2 [⟨⟨0⟩, ⟨0xbf800000⟩⟩, ⟨⟨0x3f800000⟩, ⟨0x3f800000⟩⟩] u :=
    ⟨_, _, _, hmade, rfl, by decide +kernel, hahead, by decide +kernel, rfl, hdrained⟩
  have hbegun : s.start = (.ok (), s.start.2) := Prod.ext hresult rfl
  obtain ⟨before, later, kept, sent, hbefore, hafter, hsplit, _, _, _, hsent, hstream⟩ :=
    start_keeps_whole_slots hr hidle hs hbegun hu
  cases hbefore
  cases hafter
  rw [hempty, hpending] at hsplit
  have hkept : [127, 0, -127, 0] = kept := List.append_cancel_right hsplit
  rw [← hkept] at hstream
  exact ⟨origin, s, _, u, sent, hr, hs, hbegun, hu, hpending, hsent, hstream⟩

/-- One sample is taken before the start and one after it, and the stream has only the latter. -/
theorem start_drops_partial_slot :
    ∃ (origin s t u : TransmitSink Steered),
      make { bufferCount := 8, slotSize := 4 } (some ({ transferSize := 4 } : Steered)) =
        .ok origin ∧
      Call.work [⟨⟨0x3f800000⟩, ⟨0⟩⟩] ⟨origin, [], []⟩ = .ok 1 ⟨s, [], []⟩ ∧
      s.start = (.ok (), t) ∧
      Call.work [⟨⟨0xbf800000⟩, ⟨0⟩⟩] ⟨t, [], []⟩ = .ok 1 ⟨u, [], []⟩ ∧
      Cs8.Converter.scalar.convert [⟨⟨0x3f800000⟩, ⟨0⟩⟩, ⟨⟨0xbf800000⟩, ⟨0⟩⟩] 4 =
        .ok [127, 0, -127, 0] ∧
      u.feed.sentSlots.flatten ++ u.queue.flatten ++ u.pending = [-127, 0] :=
  ⟨_, _, _, _, rfl, rfl, rfl, rfl, rfl, rfl⟩

end IqTransmit.TransmitSink
