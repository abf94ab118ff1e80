import IqTransmit.Sink.Work

/-!
Stopping: the partly filled slot is padded with silence and queued, five slots of silence
follow, and only then is the stream marked as stopping, so that the engine ends on an empty ring.
The deadline of all that is fixed at the beginning. The waits compare the time since then with the
limit, which is to compare the clock with the deadline.
-/

namespace IqTransmit.Call

variable {E : Type} [TransferEngine E]

/-- Waits for room while the engine streams, but not beyond the limit of the configuration. -/
def awaitRoomToStop : Call E Unit := do
  let limit := (← sink).config.stopTimeout
  waitUntil hasRoom (do unless ← askEngine do fail .engineStopped) limit

/-- Waits until the engine has ended, but not beyond the limit. -/
def awaitEnd : Call E Unit := do
  let limit := (← sink).config.stopTimeout
  waitUntil (do return !(← askEngine)) (pure ()) limit

/-- Pads the scratch slot with silence behind what it holds. -/
def padScratch : Call E Unit := do
  let sink ← sink
  let kept ← checked (takeExactly sink.fillOffset sink.scratch)
  let padding := sink.scratch.length - sink.fillOffset
  update fun sink => { sink with scratch := kept ++ List.replicate padding 0 }

/-- Queues `count` slots of the scratch slot, each once there is room. -/
def pushSilence : Nat → Call E Unit
  | 0 => pure ()
  | count + 1 => do
      awaitRoomToStop
      let _ ← pushScratch
      pushSilence count

/-- Queues what is left and the trailing silence, and waits until the engine has ended. -/
def flush : Call E Unit := do
  awaitRoomToStop
  padScratch
  let _ ← pushScratch
  update fun sink => { sink with
    fillOffset := 0
    scratch := List.replicate sink.scratch.length 0 }
  pushSilence SinkConfig.trailingSilence
  update fun sink => { sink with feed.stopping := true }
  awaitEnd

/-- Flushes the sink by a deadline that is fixed first, with the clock at `now`. A limit beyond the
range of the clock is a fault, whatever is still to be queued. -/
def flushAndWait (now : Instant) : Call E Unit := do
  let before ← sink
  let _ ← checked (before.config.deadline now)
  flush

/-- Ends the engine after a flush that went well or not. An error of the flush takes precedence
over one of the engine. -/
def stopEngine (flushed : Except SinkError Unit) : Call E Unit := do
  gap
  let ended ← act TransferEngine.stop (.ok ())
  update fun sink => { sink with phase := .stopped }
  let stats := (← sink).feed.stats
  report (.streamingStopped stats.drained stats.underruns stats.deferred)
  match ended with
  | .error problem =>
      report (.stopFailed problem)
      match flushed with
      | .error error => fail error
      | .ok () => fail (.hardwareStop problem)
  | .ok () =>
      match flushed with
      | .error error => fail error
      | .ok () => pure ()

/-- Stops a sink that streams, and leaves any other as it is. It ends as stopped whatever goes
wrong, unless the deadline is a fault. The clock reads `now` when the flush begins. -/
def stopAt (now : Instant) : Call E Unit := do
  let before ← sink
  match before.engine with
  | none => fail .noDevice
  | some _ =>
      if before.phase = .streaming then
        update fun sink => { sink with phase := .stopping }
        stopEngine (← attempt (flushAndWait now))
      else pure ()

/-- A stop with a clock that is at its beginning. -/
def stop : Call E Unit := stopAt ⟨0⟩

end IqTransmit.Call
