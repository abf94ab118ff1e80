import IqTransmit.Engine.Steered
import IqTransmit.Proofs.Sink.Reachable

/-!
The account of a stop. Whatever the engine does, the slots that were queued, the pending bytes with
silence behind them, and five slots of silence are what is sent during the stop or is still queued
after it; only a ring that stays full cuts that short, and then the stop says so.
-/

namespace IqTransmit.TransmitSink

variable {E : Type} {sink : TransmitSink E}

theorem Invariant.lastSlots_eq (h : sink.Invariant) :
    sink.lastSlots =
      (sink.pending ++ List.replicate (sink.config.slotSize - sink.fillOffset) 0) ::
        List.replicate 5 (List.replicate sink.config.slotSize 0) := by
  rw [lastSlots, flushSlot, silentSlot, h.scratch_length, h.slotSize_eq]
  rfl

variable [TransferEngine E]

open Call (attempt stopAt queueTail)

/-- A stop of a streaming sink faults just if the clock never comes to its deadline, before it has
queued anything. What it has queued once it returns begins the pending slot padded and five slots of
silence, and it is all of these unless a wait for room has given up at a full ring. -/
theorem stop_accounts_for_slots (hr : Reachable sink) (hphase : sink.phase = .streaming)
    (now : Instant) (pauses : List Pause) (gaps : List (List Move)) :
    (∀ fault q, attempt (stopAt now) ⟨sink, pauses, gaps⟩ = .error (.fault fault) q ↔
        fault = .timeRange ∧ sink.config.deadline now = .error .timeRange ∧
          q = ⟨{ sink with phase := .stopping }, pauses, gaps⟩) ∧
      ∀ result q, attempt (stopAt now) ⟨sink, pauses, gaps⟩ = .ok result q →
        ∃ (last popped queued : List Slot),
          last = (sink.pending ++ List.replicate (sink.config.slotSize - sink.fillOffset) 0) ::
            List.replicate 5 (List.replicate sink.config.slotSize 0) ∧
          q.sink.feed.sentSlots = sink.feed.sentSlots ++ popped ∧
          q.sink.feed.queuedSlots = sink.feed.queuedSlots ++ queued ∧
          popped ++ q.sink.queue = sink.queue ++ queued ∧ queued <+: last ∧
          (q.sink.fillOffset = 0 ↔ queued ≠ [] ∨ sink.fillOffset = 0) ∧
          ((∃ g, queueTail ⟨{ sink with phase := .stopping }, pauses, gaps⟩ = .ok () g ∧
              queued = last ∧
              (result = .ok () ∨ (∃ problem, result = .error (.hardwareStop problem)) ∨
                ∃ limit, sink.config.stopTimeout = some limit ∧
                  result = .error (.stopTimeout limit))) ∨
            ∃ error g,
              queueTail ⟨{ sink with phase := .stopping }, pauses, gaps⟩ =
                .error (.failed error) g ∧
              result = .error error ∧
              (error = .engineStopped ∨
                ∃ limit, sink.config.stopTimeout = some limit ∧ error = .stopTimeout limit) ∧
              g.sink.queued = sink.config.bufferCount ∧ queued.length < last.length) := by
  have h := hr.invariant
  have hbound := h.bound_of_streaming hphase
  have hends := Call.stop_ends (p := ⟨sink, pauses, gaps⟩) now h.toSound hphase hbound
  refine ⟨fun fault q => Call.stop_faults_iff h.toSound hphase hbound, fun result q he => ?_⟩
  · obtain ⟨flushed, queued, s, hflush, hended, hresult⟩ := hends.ok he
    have haccount := (hflush.accounted.withPhase .stopped).moved hended
    obtain ⟨popped, hflow⟩ := haccount.flow
    refine ⟨sink.lastSlots, popped, queued, h.lastSlots_eq, hflow.sent_eq, hflow.queued_eq,
      hflow.contents_eq.symm, haccount.sub, haccount.fillOffset_eq, ?_⟩
    cases hflush with
    | @whole g s flushed hwhole _ hlate =>
        refine .inl ⟨g, hwhole, rfl, ?_⟩
        rcases hresult with rfl | ⟨_, problem, rfl⟩
        · rcases hlate with rfl | hlimit
          · exact .inl rfl
          · exact .inr (.inr hlimit)
        · exact .inr (.inl ⟨problem, rfl⟩)
    | @cut g error queued hcut hgave hlen hfull hcause =>
        refine .inr ⟨error, g, hcut, ?_, ?_, ?_, hlen⟩
        · rcases hresult with rfl | ⟨hok, _⟩
          · rfl
          · cases hok
        · rcases hcause with hwait | ⟨limit, hlimit, hlate⟩ | hgone
          · cases hwait
          · cases hlate
            exact .inr ⟨limit, hlimit, rfl⟩
          · cases hgone
            exact .inl rfl
        · obtain ⟨_, hgiven⟩ := hgave.flow
          exact ((hgiven.sound.len_eq_of_full hfull).trans hgiven.capacity_eq).trans h.capacity_eq

/-- The state that a stop leaves, if it returns without an error. -/
def afterStop (p : Progress Steered) : Option (Progress Steered) :=
  match attempt (stopAt ⟨0⟩) p with
  | .ok (.ok ()) q => some q
  | _ => none

theorem attempt_stop_eq {p : Progress Steered} (h : (afterStop p).isSome = true) :
    ∃ q, attempt (stopAt ⟨0⟩) p = .ok (.ok ()) q := by
  simp only [afterStop] at h
  split at h
  · exact ⟨_, by assumption⟩
  · cases h

theorem stop_accounts_for_one_sample :
    ∃ (sink : TransmitSink Steered) (pauses : List Pause) (q : Progress Steered)
      (popped queued : List Slot),
      Reachable sink ∧ sink.phase = .streaming ∧ sink.pending = [127, 0] ∧
        attempt (stopAt ⟨0⟩) ⟨sink, pauses, []⟩ = .ok (.ok ()) q ∧
        popped ++ q.sink.queue = sink.queue ++ queued ∧
        queued <+: [127, 0, 0, 0] :: List.replicate 5 [0, 0, 0, 0] := by
  have hmade := Reachable.make (rfl : make { bufferCount := 2, slotSize := 4 }
    (some ({ transferSize := 4, batch := 1 } : Steered)) = .ok _)
  have hfilled := Reachable.work (p := ⟨_, [], []⟩) hmade.start
    (rfl : attempt (Call.work [⟨⟨0x3f800000⟩, ⟨0⟩⟩]) ⟨_, [], []⟩ = .ok _ _)
  have hall :=
    (stop_accounts_for_slots hfilled rfl ⟨0⟩ (List.replicate 8 { moves := [.engine] }) []).2
  obtain ⟨q, hq, last, popped, queued, hlast, _, _, hflow, hsub, _⟩ :=
    (attempt_stop_eq (by decide +kernel)).imp fun q hq => And.intro hq (hall (.ok ()) q hq)
  exact ⟨_, _, q, popped, queued, hfilled, rfl, rfl, hq, hflow, hlast ▸ hsub⟩

end IqTransmit.TransmitSink
