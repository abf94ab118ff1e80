import IqTransmit.Proofs.Sink.Agree
import IqTransmit.Proofs.Sink.Operation

/-!
All calls keep two sinks alike and answer the same on both, and so does every run of calls.
-/

namespace IqTransmit

variable {E : Type}

namespace Call

open TransmitSink (Moved Sound fill_scratch_length)

variable {base : Baseline} {known : Nat} {p q : Progress E} {input : List Sample}

/-! ### Filling -/

theorem pushScratch_agree (h : Paired base known p q) (hroom : p.sink.feed.ring.hasRoom = true)
    (hlen : p.sink.scratch.length = p.sink.feed.ring.slotSize)
    (hknown : p.sink.scratch.length ≤ known) :
    Agree pushScratch pushScratch p q
      (fun pushed r t => pushed = true ∧ Paired base known r t ∧
        r.sink = { p.sink with feed := p.sink.feed.enqueue p.sink.scratch }) fun _ _ => False := by
  have hroom' : q.sink.feed.ring.hasRoom = true := h.sink.feed.hasRoom_eq ▸ hroom
  have hlen' : q.sink.scratch.length = q.sink.feed.ring.slotSize := by
    rw [← h.sink.scratch_length_eq, hlen, h.sink.feed.slotSize_eq]
  exact .ok (pushScratch_of_room h.sink.feed.sound hroom hlen)
    (pushScratch_of_room h.sink.feed.fresh_sound hroom' hlen')
    ⟨rfl, h.withSink (h.sink.queueScratch hroom hlen hknown), rfl⟩

variable [TransferEngine E]

theorem pushComplete_agree (count : Nat) (h : Paired base known p q)
    (hroom : p.sink.feed.ring.hasRoom = true)
    (hlen : p.sink.scratch.length = p.sink.feed.ring.slotSize)
    (hknown : p.sink.scratch.length ≤ known) :
    Agree (pushComplete count) (pushComplete count) p q (fun _ => Abreast base)
      (Abreast base) := by
  have hring := h.sink.feed.sound
  apply ((keeps_gap.agree h).and_ends (gap_ends hring)).seq
  · rintro _ r t ⟨hrt, hr⟩
    obtain ⟨_, hflow, _⟩ := hr.drained.flow hring
    have hsize : r.sink.scratch.length = r.sink.feed.ring.slotSize := by
      rw [hr.scratch_eq, hflow.slotSize_eq, hlen]
    have hheld : r.sink.scratch.length ≤ known := by
      rw [hr.scratch_eq]
      exact hknown
    apply (pushScratch_agree hrt (hr.drained.hasRoom hring hroom) hsize hheld).seq
    · rintro _ u v ⟨rfl, huv, _⟩
      have hnext : Paired base known { u with sink := { u.sink with fillOffset := 0 } }
          { v with sink := { v.sink with fillOffset := 0 } } :=
        huv.withSink { huv.sink with fillOffset_eq := rfl, fillOffset_le := Nat.zero_le known }
      exact .ok rfl rfl hnext.abreast
    · exact fun _ _ hnever => hnever.elim
  · exact fun _ _ hcut => hcut.abreast

theorem takeBatch_agree (input : List Sample) (h : Paired base known p q) (hp : p.sink.Sound)
    (hroom : p.sink.feed.ring.hasRoom = true) :
    Agree (takeBatch input) (takeBatch input) p q (fun _ => Abreast base) (Abreast base) := by
  have hq := h.sink.sound hp
  have hfree := h.sink.free_eq
  rcases Nat.lt_or_ge input.length p.sink.free with hlt | hle
  · have hfilled := h.withSink (h.sink.fill hp hlt.le)
    exact .ok (takeBatch_of_short hp hlt) (takeBatch_of_short hq (hfree ▸ hlt)) hfilled.abreast
  · have hlen : (input.take p.sink.free).length = p.sink.free := List.length_take_of_le hle
    have hfilled := h.withSink (h.sink.fill hp hlen.le)
    have hscratch := fill_scratch_length hp hlen.le
    have hoffset : (p.sink.fill (input.take p.sink.free)).fillOffset =
        (p.sink.fill (input.take p.sink.free)).scratch.length := by
      rw [hscratch, ← hp.free_eq, TransmitSink.fill, hlen]
    have hlong := takeBatch_of_long hq (hfree ▸ hle)
    rw [← hfree] at hlong
    apply Agree.of_eq _ (takeBatch_of_long hp hle) hlong
    exact pushComplete_agree _ hfilled hroom (hscratch.trans hp.scratch_length) hoffset.ge

theorem work_agree (input : List Sample) (h : Abreast base p q) (hp : p.sink.Sound) :
    Agree (work input) (work input) p q (fun _ => Abreast base) (Abreast base) := by
  obtain ⟨known, h⟩ := h
  rw [work_eq]
  apply ((keeps_gap.agree h).and_ends (gap_ends hp.ring)).seq
  · rintro _ r t ⟨hrt, hr⟩
    have hrs := hr.sound hp
    apply ((keeps_awaitRoom.agree hrt).and_ends (awaitRoom_ends hrs.ring)).seq
    · rintro _ u v ⟨huv, hu, hroom⟩
      exact takeBatch_agree input huv (hu.sound hrs) hroom
    · exact fun _ _ hcut => hcut.abreast
  · exact fun _ _ hcut => hcut.abreast

theorem workWithin_agree (count : Nat) (input : List Sample) (h : Abreast base p q)
    (hp : p.sink.Sound) :
    Agree (workWithin count input) (workWithin count input) p q (fun _ => Abreast base)
      (Abreast base) := by
  induction count generalizing p q input with
  | zero =>
      cases input with
      | nil => exact .ok rfl rfl h
      | cons s rest => exact .error rfl rfl h
  | succ count ih =>
      cases input with
      | nil => exact .ok rfl rfl h
      | cons s rest =>
          cases (work_agree (s :: rest) h hp).and_ends (work_ends (s :: rest) hp) with
          | @error halt r t hr ht hrt =>
              have hp' : workWithin (count + 1) (s :: rest) p = .error halt r := by
                simp only [workWithin, hr]
              have hq' : workWithin (count + 1) (s :: rest) q = .error halt t := by
                simp only [workWithin, ht]
              exact .error hp' hq' hrt
          | @ok taken r t hr ht hrt =>
              have hsound := (hrt.2.flow hp).1
              have hp' : workWithin (count + 1) (s :: rest) p =
                  workWithin count ((s :: rest).drop taken) r := by
                simp only [workWithin, hr, dropExactly_eq_ok_iff.mpr ⟨hrt.2.count_le, rfl⟩]
              have hq' : workWithin (count + 1) (s :: rest) q =
                  workWithin count ((s :: rest).drop taken) t := by
                simp only [workWithin, ht, dropExactly_eq_ok_iff.mpr ⟨hrt.2.count_le, rfl⟩]
              exact (ih ((s :: rest).drop taken) hrt.1 hsound).of_eq hp' hq'

theorem workAll_agree (input : List Sample) (h : Abreast base p q) (hp : p.sink.Sound) :
    Agree (workAll input) (workAll input) p q (fun _ => Abreast base) (Abreast base) :=
  workWithin_agree input.length input h hp

/-! ### Stopping -/

/-- Scratch slots known in full are queued again and again. -/
theorem pushSilence_agree (count : Nat) (h : Paired base known p q)
    (hlen : p.sink.scratch.length = p.sink.feed.ring.slotSize)
    (hknown : p.sink.scratch.length ≤ known) :
    Agree (pushSilence count) (pushSilence count) p q (fun _ => Abreast base) (Abreast base) := by
  induction count generalizing p q with
  | zero => exact .ok rfl rfl h.abreast
  | succ count ih =>
      have hring := h.sink.feed.sound
      apply ((keeps_awaitRoomToStop.agree h).and_ends (awaitRoomToStop_ends hring)).seq
      · rintro _ r t ⟨hrt, hr, hroom⟩
        obtain ⟨_, hflow, _⟩ := hr.drained.flow hring
        have hsize : r.sink.scratch.length = r.sink.feed.ring.slotSize := by
          rw [hr.scratch_eq, hflow.slotSize_eq, hlen]
        have hheld : r.sink.scratch.length ≤ known := by
          rw [hr.scratch_eq]
          exact hknown
        apply (pushScratch_agree hrt hroom hsize hheld).seq
        · rintro _ u v ⟨_, huv, hu⟩
          apply ih huv
          · rw [hu]
            exact hsize
          · rw [hu]
            exact hheld
        · exact fun _ _ hnever => hnever.elim
      · exact fun _ _ hcut => hcut.abreast

theorem queueTail_agree (h : Paired base known p q) (hp : p.sink.Sound) :
    Agree queueTail queueTail p q (fun _ => Abreast base) (Abreast base) := by
  apply ((keeps_awaitRoomToStop.agree h).and_ends (awaitRoomToStop_ends hp.ring)).seq
  · rintro _ r t ⟨hrt, hr, hroom⟩
    have hrs := hr.sound hp
    have hpadded := hrt.withSink (hrt.sink.padded hrs)
    apply Agree.step (padScratch_of_sound hrs) (padScratch_of_sound (hrt.sink.sound hrs))
    apply (pushScratch_agree hpadded hroom hrs.flushSlot_length le_rfl).seq
    · rintro _ u v ⟨_, huv, hu⟩
      have hsilent := huv.withSink (huv.sink.silenced u.sink.scratch.length)
      refine Agree.step rfl rfl ?_
      apply pushSilence_agree _ hsilent
      · rw [List.length_replicate, hu]
        exact hrs.flushSlot_length
      · rw [List.length_replicate]
    · exact fun _ _ hnever => hnever.elim
  · exact fun _ _ hcut => hcut.abreast

theorem flush_agree (h : Paired base known p q) (hp : p.sink.Sound) :
    Agree flush flush p q (fun _ => Abreast base) (Abreast base) := by
  rw [flush_eq]
  apply (queueTail_agree h hp).seq
  · rintro _ r t ⟨known, hrt⟩
    have hmarked := hrt.withSink (hrt.sink.withFeed (hrt.sink.feed.withStopping true))
    refine Agree.step rfl rfl ?_
    apply (keeps_awaitEnd.agree hmarked).imp
    · exact fun _ _ _ hnext => hnext.abreast
    · exact fun _ _ hcut => hcut.abreast
  · exact fun _ _ hcut => hcut

theorem flushAndWait_agree (now : Instant) (h : Paired base known p q) (hp : p.sink.Sound) :
    Agree (flushAndWait now) (flushAndWait now) p q (fun _ => Abreast base) (Abreast base) := by
  have hconfig := h.sink.config_eq
  rcases flushAndWait_cases now p with ⟨_, hsome, he⟩ | ⟨hnone, he⟩
  · exact (flush_agree h hp).of_eq he (flushAndWait_of_deadline (hconfig ▸ hsome))
  · rcases flushAndWait_cases now q with ⟨_, hsome, _⟩ | ⟨_, he'⟩
    · cases hnone.symm.trans (hconfig ▸ hsome)
    · exact .error he he' h.abreast

theorem stopEngine_agree (flushed : Except SinkError Unit) (h : Abreast base p q) :
    Agree (stopEngine flushed) (stopEngine flushed) p q (fun _ => Abreast base)
      (Abreast base) := by
  obtain ⟨known, h⟩ := h
  apply (keeps_gap.agree h).seq
  · intro _ r t hrt
    apply ((keeps_act _ _).agree hrt).seq
    · intro ended u v huv
      have hstopped := huv.sink.withPhase .stopped
      -- the counters that are reported differ by those of the baseline
      have hnotice : .reported (.streamingStopped u.sink.feed.stats.drained
          u.sink.feed.stats.underruns u.sink.feed.stats.deferred) =
            (Event.reported (.streamingStopped v.sink.feed.stats.drained
              v.sink.feed.stats.underruns v.sink.feed.stats.deferred)).shift base.stats := by
        rw [huv.sink.feed.stats_eq]
        rfl
      have hlast := huv.withSink (hstopped.report hnotice)
      refine Agree.step rfl rfl ?_
      refine Agree.step rfl rfl ?_
      refine Agree.step rfl rfl ?_
      refine Agree.imp (Keeps.agree ?_ hlast) ?_ ?_
      · cases ended with
        | error problem =>
            apply (keeps_report rfl).bind
            intro _
            cases flushed with
            | error error => exact keeps_throw _
            | ok _ => exact keeps_throw _
        | ok _ =>
            cases flushed with
            | error error => exact keeps_throw _
            | ok _ => exact keeps_pure ()
      · exact fun _ _ _ hnext => hnext.abreast
      · exact fun _ _ hcut => hcut.abreast
    · exact fun _ _ hcut => hcut.abreast
  · exact fun _ _ hcut => hcut.abreast

theorem stop_agree (now : Instant) (h : Abreast base p q) (hp : p.sink.Sound) :
    Agree (stopAt now) (stopAt now) p q (fun _ => Abreast base) (Abreast base) := by
  obtain ⟨known, h⟩ := h
  apply Agree.step (sink_eq p) (sink_eq q)
  rw [← h.sink.engine_eq, ← h.sink.phase_eq]
  cases p.sink.engine with
  | none => exact .error rfl rfl h.abreast
  | some engine =>
      simp only
      by_cases hphase : p.sink.phase = .streaming
      · rw [if_pos hphase]
        have hstopping := h.withSink (h.sink.withPhase .stopping)
        have hsound := hp.withPhase .stopping
        refine Agree.step rfl rfl ?_
        apply (flushAndWait_agree now hstopping hsound).attempt.seq
        · exact fun flushed _ _ hnext => stopEngine_agree flushed hnext
        · exact fun _ _ hcut => hcut
      · rw [if_neg hphase]
        exact .ok rfl rfl h.abreast

end Call

/-! ### Runs -/

namespace Operation

variable {base : Baseline} {known : Nat} {s t : TransmitSink E}

theorem ofCall_alike {α : Type} {answer : α → Reply E} {call : Call E α} {p q : Progress E}
    (h : Call.Agree call call p q (fun _ => Call.Abreast base) (Call.Abreast base)) :
    (ofCall answer call p).1 = (ofCall answer call q).1 ∧
      ∃ known, (ofCall answer call p).2.Alike base known (ofCall answer call q).2 := by
  cases h with
  | ok hp hq hnext =>
      obtain ⟨known, hnext⟩ := hnext
      simp only [ofCall, hp, hq, true_and]
      exact ⟨known, hnext.sink⟩
  | error hp hq hnext =>
      obtain ⟨known, hnext⟩ := hnext
      simp only [ofCall, hp, hq, true_and]
      exact ⟨known, hnext.sink⟩

variable [TransferEngine E]

/-- Every call answers the same on two sinks that are alike, and leaves them alike. -/
theorem perform_alike (operation : Operation E) (h : s.Alike base known t) (hs : s.Sound) :
    (operation.perform s).1 = (operation.perform t).1 ∧
      ∃ known, (operation.perform s).2.Alike base known (operation.perform t).2 := by
  have hpaired (pauses : List Pause) (gaps : List (List Move)) :
      Call.Paired base known ⟨s, pauses, gaps⟩ ⟨t, pauses, gaps⟩ := ⟨h, rfl, rfl⟩
  cases operation with
  | bind engine =>
      obtain ⟨hresult, hnext⟩ := h.bind engine
      exact ⟨congrArg Reply.bound hresult, known, hnext⟩
  | useStrategy strategy => exact ⟨rfl, known, h.withStrategy strategy⟩
  | start =>
      obtain ⟨hresult, hnext⟩ := h.start
      exact ⟨congrArg Reply.started hresult, known, hnext⟩
  | drain drainer dest =>
      obtain ⟨delivery, s', t', hs', ht', hnext⟩ := h.drain drainer dest
      simp only [perform, hs', ht', true_and]
      exact ⟨known, hnext⟩
  | act action =>
      apply ofCall_alike
      apply ((Call.keeps_act action (.ok ())).agree (hpaired [] [])).imp
      · exact fun _ _ _ hnext => hnext.abreast
      · exact fun _ _ hcut => hcut.abreast
  | work input pauses gaps =>
      exact ofCall_alike (Call.work_agree input (hpaired pauses gaps).abreast hs).attempt
  | workAll input pauses gaps =>
      exact ofCall_alike (Call.workAll_agree input (hpaired pauses gaps).abreast hs).attempt
  | stop pauses gaps now =>
      exact ofCall_alike (Call.stop_agree now (hpaired pauses gaps).abreast hs).attempt

theorem run_alike (operations : List (Operation E)) (hr : s.Reachable)
    (h : s.Alike base known t) :
    (run s operations).1 = (run t operations).1 ∧
      ∃ known, (run s operations).2.Alike base known (run t operations).2 := by
  induction operations generalizing s t known with
  | nil => exact ⟨rfl, known, h⟩
  | cons operation rest ih =>
      obtain ⟨hreply, known, hnext⟩ := operation.perform_alike h hr.invariant.toSound
      by_cases hreturns : (operation.perform s).1.returns = true
      · have hreturns' : (operation.perform t).1.returns = true := hreply ▸ hreturns
        rw [run_of_returns hreturns, run_of_returns hreturns', hreply]
        obtain ⟨hreplies, hlast⟩ := ih (perform_reachable hr operation hreturns) hnext
        exact ⟨congrArg (List.cons _) hreplies, hlast⟩
      · have hhalts : (operation.perform s).1.returns = false := by simpa using hreturns
        have hhalts' : (operation.perform t).1.returns = false := hreply ▸ hhalts
        rw [run_of_halted hhalts, run_of_halted hhalts', hreply]
        exact ⟨rfl, known, hnext⟩

end Operation

end IqTransmit
