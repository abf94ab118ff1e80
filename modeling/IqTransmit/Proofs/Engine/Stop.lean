import IqTransmit.Proofs.Engine.Calls
import IqTransmit.Proofs.Sink.Delivery
import IqTransmit.Proofs.Sink.Live

/-!
A stop of a sink that only its file engine drains. A stop that goes well has seen every queued slot
written and the output flushed. It fails only if a write or a flush has failed, or if a pause came
after its limit; and with enough fair pauses it returns.
-/

namespace IqTransmit

open Call (Ends never sink_eq bind_of_ok waitThrough_rule)

namespace Feed

variable {f g : Feed}

/-- Once a stream is stopping, drains ask for the queued slots and for nothing else. -/
theorem Drained.transfers_of_stopping (hd : Drained f g) (hf : f.ring.Sound)
    (hstop : f.stopping = true) :
    ∃ popped, Flow f g [] popped ∧ g.stopping = true ∧ g.transfers = f.transfers ++ popped := by
  induction hd with
  | refl => exact ⟨[], .refl hf, hstop, (List.append_nil _).symm⟩
  | report notice _ ih =>
      obtain ⟨popped, hflow, hsame, htransfers⟩ := ih
      refine ⟨popped ++ [], hflow.trans (flow_report hflow.sound notice), hsame, ?_⟩
      rw [Feed.report, note_transfers, htransfers]
      exact (List.append_nil _).trans (congrArg _ (List.append_nil _).symm)
  | @drain g h drainer dest delivery _ he ih =>
      obtain ⟨popped, hflow, hsame, htransfers⟩ := ih
      rcases drain_cases hflow.sound drainer dest with
        ⟨hs, hd⟩ | ⟨_, _, hd⟩ | ⟨_, hflows, _⟩
      · rw [he] at hd
        cases hd
        refine ⟨_, hflow.trans (flow_dequeue hflow.sound hs.2 drainer), hsame, ?_⟩
        rw [dequeue, note_transfers, ← List.append_assoc, ← htransfers]
        rfl
      · rw [he] at hd
        cases hd
        refine ⟨_, hflow.trans (flow_silent hflow.sound drainer dest.length fun hflows => ?_),
          hsame, ?_⟩
        · cases hsame.symm.trans hflows
        · rw [note_transfers, htransfers]
          exact (List.append_nil _).trans (congrArg _ (List.append_nil _).symm)
      · cases hsame.symm.trans hflows

/-- So a stream that has ended has asked for all that was queued when it was stopped. -/
theorem Drained.transfers_of_ended (hd : Drained { f with stopping := true } g)
    (hf : f.ring.Sound) (hended : g.Ended) : g.transfers = f.transfers ++ f.ring.contents := by
  obtain ⟨popped, hflow, _, htransfers⟩ := hd.transfers_of_stopping hf rfl
  have hnone : g.ring.contents = [] := by
    refine (SlotRing.contents_eq_nil_iff _).mpr ?_
    rw [SlotRing.isEmpty, hended.len_eq]
    rfl
  have hall := hflow.contents_eq
  rw [hnone, List.append_nil, List.append_nil] at hall
  rw [htransfers, ← hall]
  rfl

end Feed

namespace FileEngine

variable {p : Progress FileEngine} {e : FileEngine} {outcome : Outcome}

/-- An engine whose worker has ended does not change, whoever moves. -/
theorem move_of_ended (m : Move) (hp : p.sink.feed.ring.Sound) (he : p.sink.engine = some e)
    (hworker : e.worker = some (.ended outcome)) :
    Ends (Call.move m) p (fun _ q => q.sink.engine = some e) never := by
  cases m with
  | engine =>
      simp only [Ends, Call.move, Call.act, he, TransferEngine.advance, FileEngine.advance, hworker,
        Action.run]
  | drain dest =>
      obtain ⟨delivery, g, _, hd, _, _⟩ := Feed.drain_flow hp .other dest
      simp only [Ends, Call.move, TransmitSink.drain, hd]
      exact he

theorem gap_of_ended (hp : p.sink.feed.ring.Sound) (he : p.sink.engine = some e)
    (hworker : e.worker = some (.ended outcome)) :
    Ends Call.gap p (fun _ q => q.sink.engine = some e) never := by
  have hmoves (moves : List Move) {q : Progress FileEngine} (hq : q.sink.feed.ring.Sound)
      (he : q.sink.engine = some e) :
      Ends (Call.moveAll moves) q (fun _ r => r.sink.engine = some e) never := by
    induction moves generalizing q with
    | nil => exact he
    | cons m rest ih =>
        rw [Call.moveAll_cons]
        refine ((Call.move_ends m hq).and (move_of_ended m hq he hworker)).seq ?_ ?_
        · exact fun _ r hr => ih (hr.1.drained.sound hq) hr.2
        · exact fun _ _ hn => hn.1
  simp only [Ends, Call.gap]
  cases p.gaps with
  | nil => exact he
  | cons moves rest => exact hmoves moves (q := { p with gaps := rest }) hp he

/-- The end of a stop whose worker has ended. -/
theorem stopEngine_of_ended {after : FileEngine} {ended : Except String Unit}
    (flushed : Except SinkError Unit) (hp : p.sink.feed.ring.Sound) (he : p.sink.engine = some e)
    (hworker : e.worker = some (.ended outcome)) (hstop : e.stop = .finish ended after) :
    ∃ q, Call.attempt (Call.stopEngine flushed) p =
        .ok (flushed >>= fun _ => stopResult ended) q ∧ q.sink.engine = some after := by
  have hgap := gap_of_ended hp he hworker
  cases hrun : (Call.gap : Call FileEngine Unit) p with
  | error halt r => exact (hgap.error hrun).elim
  | ok _ r =>
      obtain ⟨q, hq, _, _, hengine, _⟩ :=
        stopEngine_of_finish flushed hrun (hgap.ok hrun) hstop
      exact ⟨q, hq, hengine⟩

end FileEngine

namespace Tended

variable {c : Setting} {need : Nat} {p q : Progress FileEngine}

theorem awaitRoomToStop (hc : c.Lawful) (h : Tended c false (need + 4) p) :
    Ends Call.awaitRoomToStop p
      (fun _ q => Tended c false need q ∧ q.sink.feed.ring.hasRoom = true)
      (GaveUp c c.config.stopTimeout) := by
  refine Ends.step (sink_eq p) ?_
  rw [h.config_eq]
  exact h.awaitRoom hc looksToStop

/-- The six slots of a flush need four pauses each. -/
theorem queueTail (hc : c.Lawful) (hp : p.sink.Sound) (h : Tended c false (need + 24) p) :
    Ends Call.queueTail p (fun _ q => TransmitSink.Flushed p.sink q.sink ∧ Tended c false need q)
      (GaveUp c c.config.stopTimeout) := by
  have hrule : Call.FlushRule (fun n q => Tended c false (need + 4 * n) q)
      (fun n q => Tended c false (need + 4 * n) q ∧ q.sink.feed.ring.hasRoom = true)
      (fun halt q => (∃ fault, halt = .fault fault) ∨ GaveUp c c.config.stopTimeout halt q) := by
    refine ⟨?_, ?_, ?_, ?_, fun fault _ => .inl ⟨fault, rfl⟩⟩
    · intro n q hq
      have hneed : Tended c false (need + 4 * n + 4) q := hq.weaken (by omega)
      exact (hneed.awaitRoomToStop hc).imp (fun _ _ hr => hr) fun _ _ hgave => .inr hgave
    · rintro n q ⟨hq, hroom⟩
      refine (Call.pushScratch_cases hq.sound hroom).imp ?_ fun _ _ hf => .inl hf
      rintro _ _ ⟨_, _, rfl⟩
      exact hq.pushed hroom
    · exact fun n q scratch hq => ⟨hq.1.refilled scratch q.sink.fillOffset, hq.2⟩
    · exact fun n q scratch hq => hq.refilled scratch 0
  refine ((Call.queueTail_ends hp).and (hrule.queueTail_ends h)).imp (fun _ _ hq => hq) ?_
  rintro halt q ⟨⟨_, _, hcause⟩, ⟨fault, rfl⟩ | hgave⟩
  · rcases hcause with hwait | ⟨_, _, hlate⟩ | hgone
    · cases hwait
    · cases hlate
    · cases hgone
  · exact hgave

/-- The last wait is over when the worker has ended, after three pauses for each queued slot and
four more at most. -/
theorem awaitEnd (hc : c.Lawful) (h : Tended c true (3 * c.config.bufferCount + 4) p) :
    Ends Call.awaitEnd p
      (fun _ q => Tended c true 0 q ∧ ∃ e, q.sink.engine = some e ∧
        e.Attached c.origin q.sink.feed ∧ e.streaming = false)
      (GaveUp c c.config.stopTimeout) := by
  refine Ends.step (sink_eq p) ?_
  rw [h.config_eq]
  refine waitThrough_rule
    (fun pauses q => q.pauses = pauses ∧ Tended c true 0 q ∧
      ∃ e, q.sink.engine = some e ∧ e.Attached c.origin q.sink.feed ∧
        (c.fair → e.work q.sink.feed ≤ pauses.length))
    (fun pauses q => q.pauses = pauses ∧ Tended c true 0 q ∧
      ∃ e, q.sink.engine = some e ∧ e.Attached c.origin q.sink.feed ∧ 0 < e.rank ∧
        (c.fair → e.work q.sink.feed ≤ pauses.length))
    ?_ ?_ ?_ ?_
  · rintro pauses q ⟨rfl, hq, e, he, hattached, hwork⟩
    refine Ends.step (askEngine_eq he) ⟨fun hends => ⟨hq, e, he, hattached, ?_⟩, fun hgoes => ?_⟩
    · simpa using hends
    · refine .of_ok rfl ⟨rfl, hq, e, he, hattached, ?_, hwork⟩
      exact hattached.streaming_iff.mp (by simpa using hgoes)
  · rintro q ⟨_, _, e, _, _, hpos, hwork⟩
    refine .inl ⟨rfl, fun hfair => ?_⟩
    have hle := hwork hfair
    rw [List.length_nil, FileEngine.work] at hle
    omega
  · rintro next rest q ⟨hpauses, hq, e, he, hattached, hpos, hwork⟩
    have hmem : next ∈ c.pauses := hq.pauses (hpauses ▸ List.mem_cons_self)
    by_cases htime : next.InTime c.config.stopTimeout
    · obtain ⟨e', feed, hrun, hattached', hdrained, hless⟩ :=
        hattached.moveAll (p := { q with pauses := rest }) (hc.only next hmem) he hq.sound
      refine .of_ok ((Call.takePause_of_inTime htime rest q).trans hrun)
        ⟨rfl, (hq.taken hpauses).drained hattached' hdrained, e', rfl, hattached', fun hfair => ?_⟩
      have hle := hwork hfair
      have hlower := hless (.inl hq.stopping_eq)
      have hmoves := List.length_pos_iff.mpr (hc.moves hfair next hmem)
      simp only [List.length_cons] at hle hlower ⊢
      omega
    · obtain ⟨time, r, hlimit, hrun⟩ := Call.takePause_of_late htime rest q
      exact .of_error hrun (.inr (.inr ⟨time, hlimit, rfl, next, hmem, htime⟩))
  · obtain ⟨e, he, hattached⟩ := h.engine
    refine ⟨rfl, h.weaken (Nat.zero_le _), e, he, hattached, fun hfair => ?_⟩
    have hle := h.enough hfair
    have hrank := hattached.rank_le
    have hlen := h.sound.len_le
    rw [h.capacity_eq] at hlen
    rw [FileEngine.work]
    omega

/-- The stream is marked as stopping. -/
theorem withStopping (h : Tended c false need p) :
    Tended c true need { p with sink := { p.sink with feed.stopping := true } } := by
  obtain ⟨e, he, hattached⟩ := h.engine
  exact ⟨h.sound, ⟨e, he, hattached.withStopping h.stopping_eq⟩, rfl, h.capacity_eq, h.config_eq,
    h.phase_eq, h.pauses, h.gaps, h.enough⟩

/-- What has become of the output when the last wait of a flush of `s` is over: it holds all
transfers that were asked for before the last slot was queued and then the slots queued by then, or
a write or a flush has failed. -/
def Drawn (origin : Output) (s : TransmitSink FileEngine) (e : FileEngine) : Prop :=
  (∃ g : TransmitSink FileEngine, TransmitSink.Flushed s g ∧
      (∀ slot ∈ g.feed.transfers, slot.length = g.feed.ring.slotSize) ∧
      e.worker = some (.ended .done) ∧
      origin.sendEach (g.feed.transfers ++ g.queue) = (.ok (), e.output)) ∨
    ∃ problem, e.worker = some (.ended (.failed problem)) ∧ FileEngine.Lost origin e.output

theorem flush (hc : c.Lawful) (hp : p.sink.Sound)
    (h : Tended c false (3 * c.config.bufferCount + 28) p) :
    Ends Call.flush p
      (fun _ q => q.sink.feed.ring.Sound ∧
        ∃ e, q.sink.engine = some e ∧ Drawn c.origin p.sink e)
      (GaveUp c c.config.stopTimeout) := by
  rw [Call.flush_eq]
  refine (h.queueTail hc hp).seq ?_ fun _ _ hgave => hgave
  rintro _ g ⟨hflushed, hg⟩
  refine Ends.step (Call.update_eq _ g) ?_
  obtain ⟨e, he, hattached⟩ := hg.engine
  refine ((hg.withStopping.awaitEnd hc).and (Call.awaitEnd_ends hg.withStopping.sound)).imp ?_
    fun _ _ hgave => hgave.1
  rintro _ t ⟨⟨ht, after, hafter, hlast, hgone⟩, hmoved⟩
  refine ⟨ht.sound, after, hafter, ?_⟩
  rcases hlast.ended hgone with ⟨hworker, hended, hsent⟩ | hfailed
  · refine .inl ⟨g.sink, hflushed, hattached.length_eq, hworker, ?_⟩
    rw [hmoved.drained.transfers_of_ended hg.sound hended] at hsent
    exact hsent
  · exact .inr hfailed

/-- Why a stop fails: a write or a flush has failed, or a pause came after the limit. -/
def Unsent (c : Setting) (error : SinkError) (s : TransmitSink FileEngine) : Prop :=
  (∃ e, s.engine = some e ∧ FileEngine.Lost c.origin e.output) ∨
    ∃ time, c.config.stopTimeout = some time ∧ error = .stopTimeout time ∧
      ∃ pause ∈ c.pauses, ¬ pause.InTime c.config.stopTimeout

/-- What a stop of `s` does that goes well: all transfers that were asked for before the last slot
was queued, and the slots queued by then, are written and flushed. -/
def SentAll (origin : Output) (s t : TransmitSink FileEngine) : Prop :=
  ∃ (g : TransmitSink FileEngine) (e : FileEngine), TransmitSink.Flushed s g ∧
    (∀ slot ∈ g.feed.transfers, slot.length = g.feed.ring.slotSize) ∧ t.engine = some e ∧
    origin.sendEach (g.feed.transfers ++ g.queue) = (.ok (), e.output)

/-- The end of a stop after a flush that went well. -/
theorem stopEngine_of_drawn {origin : Output} {s : TransmitSink FileEngine} {e : FileEngine}
    (hp : p.sink.feed.ring.Sound) (he : p.sink.engine = some e) (hdrawn : Drawn origin s e) :
    ∃ result q, Call.attempt (Call.stopEngine (.ok ())) p = .ok result q ∧
      (result = .ok () ∧ SentAll origin s q.sink ∨
        ∃ error, result = .error error ∧
          ∃ after, q.sink.engine = some after ∧ FileEngine.Lost origin after.output) := by
  rcases hdrawn with ⟨g, hflushed, hlength, hworker, hsent⟩ | ⟨problem, hworker, hlost⟩
  · obtain ⟨after, hstop, hsame⟩ := FileEngine.stop_of_done hworker
    obtain ⟨q, hq, hafter⟩ := FileEngine.stopEngine_of_ended (.ok ()) hp he hworker hstop
    exact ⟨_, q, hq, .inl ⟨rfl, g, after, hflushed, hlength, hafter, hsame ▸ hsent⟩⟩
  · obtain ⟨text, after, hstop, hsame⟩ := FileEngine.stop_of_failed hworker
    obtain ⟨q, hq, hafter⟩ := FileEngine.stopEngine_of_ended (.ok ()) hp he hworker hstop
    exact ⟨_, q, hq, .inr ⟨_, rfl, after, hafter, hsame ▸ hlost⟩⟩

/-- The end of a stop after a flush that gave up. -/
theorem stopEngine_of_gaveUp {error : SinkError} (hp : p.sink.feed.ring.Sound)
    (hgave : GaveUp c c.config.stopTimeout (.failed error) p) :
    ∃ q, Call.attempt (Call.stopEngine (.error error)) p = .ok (.error error) q ∧
      Unsent c error q.sink := by
  rcases hgave with ⟨hwait, _⟩ | ⟨_, hbroken⟩ | ⟨time, hlimit, hlate, hpause⟩
  · cases hwait
  · obtain ⟨e, problem, he, _, hworker, hlost⟩ := hbroken.failed
    obtain ⟨text, after, hstop, hsame⟩ := FileEngine.stop_of_failed hworker
    obtain ⟨q, hq, hafter⟩ := FileEngine.stopEngine_of_ended (.error error) hp he hworker hstop
    exact ⟨q, hq, .inl ⟨after, hafter, hsame ▸ hlost⟩⟩
  · cases hlate
    have hends := Call.stopEngine_ends (.error (.stopTimeout time)) hp
    cases hrun : Call.stopEngine (.error (.stopTimeout time)) p with
    | ok _ q => cases (hends.ok hrun).2
    | error halt q =>
        obtain ⟨_, ⟨_, hfailed, rfl⟩ | ⟨hok, _⟩⟩ := hends.error hrun
        · cases hfailed
          exact ⟨q, by simp only [Call.attempt, hrun], .inr ⟨time, hlimit, rfl, hpause⟩⟩
        · cases hok

/-- A stop that fails leaves a broken output or was late. It does not return only if its pauses were
not fair, or if the clock never comes to its deadline. -/
theorem stop (now : Instant) (hc : c.Lawful) (hp : p.sink.Sound)
    (hphase : p.sink.phase = .streaming) (h : Tended c false (3 * c.config.bufferCount + 28)
      { p with sink := { p.sink with phase := .stopping } }) :
    Ends (Call.attempt (Call.stopAt now)) p
      (fun result q =>
        result = .ok () ∧ SentAll c.origin { p.sink with phase := .stopping } q.sink ∨
          ∃ error, result = .error error ∧ Unsent c error q.sink)
      (fun halt _ => (halt = .waiting ∧ ¬ c.fair) ∨
        halt = .fault .timeRange ∧ p.sink.config.deadline now = .error .timeRange) := by
  have hsound := hp.withPhase .stopping
  have hengine : p.sink.engine.isSome = true := by
    obtain ⟨e, he, _⟩ := h.engine
    exact Option.isSome_iff_exists.mpr ⟨e, he⟩
  rcases Call.flushAndWait_cases now { p with sink := { p.sink with phase := .stopping } } with
    ⟨_, _, hsame⟩ | ⟨hnone, _⟩
  swap
  · exact .of_error ((Call.stop_faults_iff hp hphase hengine).mpr ⟨rfl, hnone, rfl⟩)
      (.inr ⟨rfl, hnone⟩)
  have hflush := h.flush hc hsound
  have haccount := Call.flush_ends
    (p := { p with sink := { p.sink with phase := .stopping } }) hsound
  cases hrun : (Call.flush : Call FileEngine Unit)
      { p with sink := { p.sink with phase := .stopping } } with
  | ok _ q =>
      obtain ⟨hq, e, he, hdrawn⟩ := hflush.ok hrun
      obtain ⟨result, r, hended, hresult⟩ := stopEngine_of_drawn hq he hdrawn
      refine .of_ok ((Call.attempt_stop_of_flushed hphase hengine ?_).trans hended) ?_
      · simp only [Call.attempt, hsame, hrun]
      · rcases hresult with hsent | ⟨error, herror, hlost⟩
        · exact .inl hsent
        · exact .inr ⟨error, herror, .inl hlost⟩
  | error halt q =>
      have hgave := hflush.error hrun
      cases halt with
      | failed error =>
          have hattempt : Call.attempt Call.flush
              { p with sink := { p.sink with phase := .stopping } } = .ok (.error error) q := by
            simp only [Call.attempt, hrun]
          obtain ⟨queued, hend⟩ := haccount.ok hattempt
          obtain ⟨r, hended, hunsent⟩ := stopEngine_of_gaveUp hend.accounted.sound.ring hgave
          rw [← Call.attempt_congr hsame] at hattempt
          exact .of_ok ((Call.attempt_stop_of_flushed hphase hengine hattempt).trans hended)
            (.inr ⟨error, rfl, hunsent⟩)
      | waiting =>
          have hunfair : ¬ c.fair := by
            rcases hgave with ⟨_, hunfair⟩ | ⟨hgone, _⟩ | ⟨_, _, hlate, _⟩
            · exact hunfair
            · cases hgone
            · cases hlate
          refine .of_error (q := q) ?_ (.inl ⟨rfl, hunfair⟩)
          have hattempt : Call.attempt (Call.flushAndWait now)
              { p with sink := { p.sink with phase := .stopping } } = .error .waiting q := by
            simp only [Call.attempt, hsame, hrun]
          simp only [Call.attempt, Call.stop_of_streaming hphase hengine] at hattempt ⊢
          rw [Call.bind_of_error hattempt]
      | fault fault =>
          rcases hgave with ⟨hwait, _⟩ | ⟨hgone, _⟩ | ⟨_, _, hlate, _⟩
          · cases hwait
          · cases hgone
          · cases hlate

end Tended

namespace Broken

variable {origin : Output} {s : TransmitSink FileEngine} {now : Instant}

/-- A flush gives up at once if its engine has failed at a full ring. -/
theorem flush (h : Broken origin s) (pauses : List Pause) (gaps : List (List Move)) :
    Call.flush ⟨s, pauses, gaps⟩ =
      .error (.failed .engineStopped) ⟨s, pauses, gaps⟩ := by
  obtain ⟨e, problem, he, hgone, _, _⟩ := h.failed
  have hask : Call.askEngine ⟨s, pauses, gaps⟩ = .ok false ⟨s, pauses, gaps⟩ := by
    rw [← hgone]
    exact Tended.askEngine_eq he
  have hlook : (do unless ← Call.askEngine do Call.fail .engineStopped : Call FileEngine Unit)
      ⟨s, pauses, gaps⟩ = .error (.failed .engineStopped) ⟨s, pauses, gaps⟩ := by
    rw [bind_of_ok hask]
    rfl
  have hwait : Call.awaitRoomToStop ⟨s, pauses, gaps⟩ =
      .error (.failed .engineStopped) ⟨s, pauses, gaps⟩ := by
    rw [Call.awaitRoomToStop, bind_of_ok (sink_eq _)]
    cases pauses with
    | nil => simp only [Call.waitUntil, Call.waitThrough, Call.hasRoom, h.full, hlook]
    | cons next rest => simp only [Call.waitUntil, Call.waitThrough, Call.hasRoom, h.full, hlook]
  rw [Call.flush, Call.bind_of_error hwait]

/-- So a stop of such a sink answers with the error of the engine, if it has a deadline. -/
theorem stop (h : Broken origin s) (hs : s.feed.ring.Sound) (hphase : s.phase = .streaming)
    {deadline : Option Instant} (hdeadline : s.config.deadline now = .ok deadline)
    (pauses : List Pause) (gaps : List (List Move)) :
    ∃ q, Call.attempt (Call.stopAt now) ⟨s, pauses, gaps⟩ = .ok (.error .engineStopped) q ∧
      ∃ e, q.sink.engine = some e ∧ FileEngine.Lost origin e.output := by
  obtain ⟨e, problem, he, hgone, hworker, hlost⟩ := h.failed
  obtain ⟨text, after, hstop, hsame⟩ := FileEngine.stop_of_failed hworker
  obtain ⟨q, hq, hafter⟩ := FileEngine.stopEngine_of_ended
    (p := ⟨{ s with phase := .stopping }, pauses, gaps⟩) (.error .engineStopped) hs he hworker hstop
  have hflush : Call.attempt (Call.flushAndWait now) ⟨{ s with phase := .stopping }, pauses, gaps⟩ =
      .ok (.error .engineStopped) ⟨{ s with phase := .stopping }, pauses, gaps⟩ := by
    have hbroken : Broken origin { s with phase := .stopping } := ⟨h.full, h.failed⟩
    have hfirst := Call.flushAndWait_of_deadline
      (p := ⟨{ s with phase := .stopping }, pauses, gaps⟩) hdeadline
    simp only [Call.attempt, hfirst, hbroken.flush pauses gaps]
  refine ⟨q, ?_, after, hafter, hsame ▸ hlost⟩
  exact (Call.attempt_stop_of_flushed (p := ⟨s, pauses, gaps⟩) hphase
    (Option.isSome_iff_exists.mpr ⟨e, he⟩) hflush).trans hq

end Broken

end IqTransmit
