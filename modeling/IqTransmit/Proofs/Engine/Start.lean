import IqTransmit.Proofs.Engine.File
import IqTransmit.Proofs.Sink.Reachable

/-!
The start of a sink that has just been made, over a file engine that was never started. It holds
nothing and has sent nothing, and the engine is attached to it.
-/

namespace IqTransmit

namespace TransmitSink

variable {E : Type}

/-- A sink from which nothing was sent yet, and that holds nothing to send. -/
structure Fresh (s : TransmitSink E) : Prop where
  queue_eq : s.queue = []
  pending_eq : s.pending = []
  deliveries_eq : s.feed.deliveries = []

/-- A configuration that is valid, with a ring that one store can hold, makes a sink. -/
theorem make_of_valid {config : SinkConfig} (hconfig : config.validate = .ok ())
    (hsize : config.bufferCount * config.slotSize ≤ maxStore) (engine : Option E) :
    ∃ s, make config engine = .ok s ∧ s.engine = engine ∧ s.phase = .idle ∧ s.config = config ∧
      s.Fresh := by
  obtain ⟨hcount, hslot, _⟩ := validate_eq_ok hconfig
  have hring := SlotRing.make_eq_ok_iff.mpr ⟨hcount, hslot, hsize, rfl⟩
  simp only [make, hconfig, hring]
  split
  · exact ⟨_, rfl, rfl, rfl, rfl, rfl, rfl, rfl⟩
  · exact ⟨_, rfl, rfl, rfl, rfl, rfl, rfl, rfl⟩

end TransmitSink

namespace FileEngine

/-- An engine whose worker is about to look for the first time. -/
def started (e : FileEngine) : FileEngine :=
  { e with
    hasWriter := false
    streaming := true
    stopRequested := false
    worker := some (.busy (.look (List.replicate e.transferSize 0))) }

variable {s : TransmitSink FileEngine} {e : FileEngine}

end FileEngine

end IqTransmit
