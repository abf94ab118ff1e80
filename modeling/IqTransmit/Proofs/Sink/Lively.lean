import IqTransmit.Proofs.Sink.Flush

/-!
Engines that live for as long as their stream. Each move of such an engine makes one transfer or
none; told of the end, it comes to rest a few moves later. Its moves send the slots that are queued,
in order, and if the stream is stopping the first transfer behind these is the end of it.
-/

namespace IqTransmit

variable {E : Type}

namespace Feed

variable {f g h : Feed} {slot : Slot} {pushed popped pushed' popped' : List Slot}

/-- A flow whose slots all went to the engine, with nothing between them. -/
structure Served (f g : Feed) (pushed popped : List Slot) : Prop
    extends Flow f g pushed popped where
  deliveries_eq : g.deliveries = f.deliveries ++ popped.map fun slot => (.engine, ⟨.proceed, slot⟩)
  underruns_eq : g.stats.underruns = f.stats.underruns

theorem Served.refl (hf : f.ring.Sound) : Served f f [] [] :=
  ⟨.refl hf, (List.append_nil _).symm, rfl⟩

theorem Served.trans (hfg : Served f g pushed popped) (hgh : Served g h pushed' popped') :
    Served f h (pushed ++ pushed') (popped ++ popped') := by
  refine ⟨hfg.toFlow.trans hgh.toFlow, ?_, hgh.underruns_eq.trans hfg.underruns_eq⟩
  rw [hgh.deliveries_eq, hfg.deliveries_eq, List.map_append, List.append_assoc]

theorem Served.withStopping (hfg : Served f g pushed popped) :
    Served f { g with stopping := true } pushed popped :=
  ⟨hfg.toFlow.withStopping, hfg.deliveries_eq, hfg.underruns_eq⟩

theorem served_enqueue (hf : f.ring.Sound) (hroom : f.ring.hasRoom = true)
    (hslot : slot.length = f.ring.slotSize) : Served f (f.enqueue slot) [slot] [] :=
  ⟨flow_enqueue hf hroom hslot, note_deliveries _ _, rfl⟩

theorem served_dequeue (hf : f.ring.Sound) (hempty : f.ring.isEmpty = false) :
    Served f (f.dequeue .engine) [] [f.ring.slotAt f.ring.tail] :=
  ⟨flow_dequeue hf hempty .engine, note_deliveries _ _, rfl⟩

end Feed

variable [TransferEngine E]

namespace Call

variable {p : Progress E} {engine next : E} {dest : List Int8} {resume : Pulled → Action E Unit}

/-- A move of the engine without a transfer. -/
theorem move_of_idle (hengine : p.sink.engine = some engine)
    (hadvance : TransferEngine.advance engine = .finish () next) :
    move .engine p = .ok () { p with sink := { p.sink with engine := some next } } := by
  simp only [move, act, hengine, hadvance, Action.run]

variable (hengine : p.sink.engine = some engine)
  (hadvance : TransferEngine.advance engine = .pull dest resume) (hp : p.sink.feed.ring.Sound)
include hengine hadvance hp

/-- A transfer for which there is a slot. -/
theorem move_of_slot (hdest : dest.length = p.sink.feed.ring.slotSize)
    (hempty : p.sink.feed.ring.isEmpty = false)
    (hresume : resume (.delivered
      ⟨.proceed, p.sink.feed.ring.slotAt p.sink.feed.ring.tail⟩) = .finish () next) :
    move .engine p = .ok () { p with sink := { p.sink with
      engine := some next, feed := p.sink.feed.dequeue .engine } } := by
  have hdrain := Feed.drain_of_serves hp ⟨hdest, hempty⟩ .engine
  simp only [move, act, hengine, hadvance, Action.run, Feed.pull, hdrain, hresume]

/-- The transfer that ends a stream. -/
theorem move_of_end (hempty : p.sink.feed.ring.isEmpty = true)
    (hstop : p.sink.feed.stopping = true)
    (hresume : resume (.delivered ⟨.terminate, List.replicate dest.length 0⟩) = .finish () next) :
    move .engine p = .ok () { p with sink := { p.sink with
      engine := some next
      feed := p.sink.feed.note (.silent .engine .terminate dest.length) } } := by
  rcases Feed.drain_cases hp .engine dest with ⟨hs, _⟩ | ⟨_, _, hdrain⟩ | ⟨_, hflows, _⟩
  · exact absurd (hempty.symm.trans hs.2) nofun
  · simp only [move, act, hengine, hadvance, Action.run, Feed.pull, hdrain, hresume]
  · exact absurd (hstop.symm.trans hflows) nofun

end Call

/-! ## Engines that live -/

/-- Moves of an engine that is told to go on at each transfer, whatever it is given: `n` of them
make a transfer of `size` bytes, and the others none. -/
inductive Pulls (size : Nat) : List Move → E → Nat → E → Prop where
  | done {e : E} : Pulls size [] e 0 e
  | idle {moves : List Move} {e next last : E} {n : Nat} :
      TransferEngine.advance e = .finish () next → Pulls size moves next n last →
      Pulls size (.engine :: moves) e n last
  | pull {moves : List Move} {e next last : E} {n : Nat} {dest bytes : List Int8}
      {resume : Pulled → Action E Unit} :
      TransferEngine.advance e = .pull dest resume → bytes.length = size →
      resume (.delivered ⟨.proceed, bytes⟩) = .finish () next → Pulls size moves next n last →
      Pulls size (.engine :: moves) e (n + 1) last

/-- An engine for transfers of `size` bytes. `alive` are its states while it streams, in which it
goes on for as long as it is told to. Once it is told of the end, `told k` are those with `k` moves
to come until it streams no more, and these are never more than `closing`. A stop after that has the
result `ending`. -/
structure Lively (size closing : Nat) (ending : Except String Unit) (alive : E → Prop)
    (told : Nat → E → Prop) : Prop where
  poll_alive : ∀ e, alive e → ∃ e', TransferEngine.poll e = (true, e') ∧ alive e'
  advance_alive : ∀ e, alive e →
    (∃ e', TransferEngine.advance e = .finish () e' ∧ alive e') ∨
    ∃ dest resume, TransferEngine.advance e = .pull dest resume ∧ dest.length = size ∧
      (∀ bytes, bytes.length = size →
        ∃ e', resume (.delivered ⟨.proceed, bytes⟩) = .finish () e' ∧ alive e') ∧
      ∀ bytes, bytes.length = size → ∃ k ≤ closing, ∃ e',
        resume (.delivered ⟨.terminate, bytes⟩) = .finish () e' ∧ told k e'
  poll_told : ∀ k e, told k e → ∃ e', TransferEngine.poll e = (decide (0 < k), e') ∧ told k e'
  advance_told : ∀ k e, told k e →
    ∃ e', TransferEngine.advance e = .finish () e' ∧ told (k - 1) e'
  stop_told : ∀ e, told 0 e → ∃ e', TransferEngine.stop e = .finish ending e'

/-- An engine drains in all of the pauses to come, before each of which it is asked whether it
streams, as it just was. They begin in time, and nobody else moves in them. As long as it is told to
go on, and whatever it is given, it makes at least one transfer in each, and a batch at most. -/
def Drains (size batch : Nat) (limit : Option Duration) : List Pause → E → Prop
  | [], _ => True
  | next :: rest, e => next.InTime limit ∧ OnlyEngine next.moves ∧ ∀ n e',
      Pulls size next.moves e n e' →
        1 ≤ n ∧ n ≤ batch ∧ Drains size batch limit rest (TransferEngine.poll e').2

/-- An engine drains in all of the pauses if what holds of it before one of them makes it drain in
that, and holds again before the next. -/
theorem drains_of_kept (kept : E → Prop) {size batch : Nat} {limit : Option Duration}
    {pauses : List Pause} {engine : E}
    (hpauses : ∀ pause ∈ pauses, pause.InTime limit ∧ OnlyEngine pause.moves)
    (hkept : ∀ pause ∈ pauses, ∀ e n last, kept e → Pulls size pause.moves e n last →
      1 ≤ n ∧ n ≤ batch ∧ kept (TransferEngine.poll last).2) (h : kept engine) :
    Drains size batch limit pauses engine := by
  induction pauses generalizing engine with
  | nil => trivial
  | cons next rest ih =>
      obtain ⟨⟨htime, honly⟩, hrest⟩ := List.forall_mem_cons.mp hpauses
      obtain ⟨hfirst, hlater⟩ := List.forall_mem_cons.mp hkept
      refine ⟨htime, honly, fun n last hpulls => ?_⟩
      obtain ⟨hpos, hbatch, hlast⟩ := hfirst engine n last h hpulls
      exact ⟨hpos, hbatch, ih hrest hlater hlast⟩

namespace Lively

variable {size batch closing k : Nat} {ending : Except String Unit} {limit : Option Duration}
variable {alive : E → Prop} {told : Nat → E → Prop} {engine : E} {p : Progress E}
variable {moves : List Move} {pauses : List Pause}
variable (h : Lively size closing ending alive told)
include h

/-- A living engine that is told to go on lives on. -/
theorem exists_pulls (halive : alive engine) (hmoves : OnlyEngine moves) :
    ∃ n last, Pulls size moves engine n last ∧ alive last := by
  induction moves generalizing engine with
  | nil => exact ⟨0, engine, .done, halive⟩
  | cons m rest ih =>
      obtain ⟨rfl, hrest⟩ := onlyEngine_cons.mp hmoves
      rcases h.advance_alive engine halive with
        ⟨next, hadvance, hnext⟩ | ⟨dest, resume, hadvance, _, hproceed, _⟩
      · obtain ⟨n, last, hpulls, hlast⟩ := ih hnext hrest
        exact ⟨n, last, .idle hadvance hpulls, hlast⟩
      · have hzeros : (List.replicate size (0 : Int8)).length = size := List.length_replicate
        obtain ⟨next, hresume, hnext⟩ := hproceed _ hzeros
        obtain ⟨n, last, hpulls, hlast⟩ := ih hnext hrest
        exact ⟨n + 1, last, .pull hadvance hzeros hresume hpulls, hlast⟩

/-- The moves of an engine that was told of the end bring it nearer to its rest. -/
theorem moveAll_told (hmoves : OnlyEngine moves) (hengine : p.sink.engine = some engine)
    (htold : told k engine) :
    ∃ after, told (k - moves.length) after ∧ Call.moveAll moves p =
      .ok () { p with sink := { p.sink with engine := some after } } := by
  induction moves generalizing p engine k with
  | nil => exact ⟨engine, htold, by rw [← hengine]; rfl⟩
  | cons m rest ih =>
      obtain ⟨rfl, hrest⟩ := onlyEngine_cons.mp hmoves
      obtain ⟨next, hadvance, hnext⟩ := h.advance_told k engine htold
      obtain ⟨after, hafter, hrun⟩ :=
        ih (p := { p with sink := { p.sink with engine := some next } }) hrest rfl hnext
      refine ⟨after, ?_, ?_⟩
      · rwa [List.length_cons, Nat.add_comm, ← Nat.sub_sub]
      · rw [Call.moveAll, Call.move_of_idle hengine hadvance]
        exact hrun

/-- The moves of a living engine send a slot for each transfer that they make. If there are more of
these than slots, and the stream is stopping, then it is told of the end. -/
theorem moveAll_alive (hmoves : OnlyEngine moves) (hengine : p.sink.engine = some engine)
    (halive : alive engine) (hp : p.sink.feed.ring.Sound)
    (hsize : p.sink.feed.ring.slotSize = size) :
    ∃ n last, Pulls size moves engine n last ∧
      ((∃ feed popped, alive last ∧ p.sink.feed.Served feed [] popped ∧ popped.length = n ∧
          feed.stopping = p.sink.feed.stopping ∧ Call.moveAll moves p =
            .ok () { p with sink := { p.sink with engine := some last, feed } }) ∨
        p.sink.feed.ring.len < n ∧ (p.sink.feed.stopping = true →
          ∃ k ≤ closing, ∃ after feed popped, told k after ∧ p.sink.feed.Served feed [] popped ∧
            feed.ring.len = 0 ∧ Call.moveAll moves p = .ok () { p with sink := { p.sink with
              engine := some after
              feed := feed.note (.silent .engine .terminate size) } })) := by
  induction moves generalizing p engine with
  | nil =>
      refine ⟨0, engine, .done, .inl ⟨_, [], halive, .refl hp, rfl, rfl, ?_⟩⟩
      rw [← hengine]
      rfl
  | cons m rest ih =>
      obtain ⟨rfl, hrest⟩ := onlyEngine_cons.mp hmoves
      rcases h.advance_alive engine halive with
        ⟨next, hadvance, hnext⟩ | ⟨dest, resume, hadvance, hdest, hproceed, hterminate⟩
      · obtain ⟨n, last, hpulls, hlast⟩ :=
          ih (p := { p with sink := { p.sink with engine := some next } }) hrest rfl hnext hp hsize
        rw [Call.moveAll, Call.move_of_idle hengine hadvance]
        exact ⟨n, last, .idle hadvance hpulls, hlast⟩
      cases hempty : p.sink.feed.ring.isEmpty with
      | false =>
          have hslot := (SlotRing.slotAt_length hp hp.tail_lt).trans hsize
          obtain ⟨next, hresume, hnext⟩ := hproceed _ hslot
          have hserved := Feed.served_dequeue hp hempty
          have hpos : 0 < p.sink.feed.ring.len := by
            simpa [SlotRing.isEmpty, Nat.pos_iff_ne_zero] using hempty
          obtain ⟨n, last, hpulls, hlast⟩ :=
            ih (p := { p with sink := { p.sink with
              engine := some next, feed := p.sink.feed.dequeue .engine } }) hrest rfl hnext
              hserved.sound (hserved.slotSize_eq.trans hsize)
          rw [Call.moveAll,
            Call.move_of_slot hengine hadvance hp (hdest.trans hsize.symm) hempty hresume]
          refine ⟨n + 1, last, .pull hadvance hslot hresume hpulls, ?_⟩
          rcases hlast with ⟨feed, popped, hlast, hsent, hlen, hsame, hrun⟩ | ⟨hless, hends⟩
          · exact .inl ⟨feed, _, hlast, hserved.trans hsent, congrArg _ hlen, hsame, hrun⟩
          · refine .inr ⟨Nat.lt_succ_of_le (Nat.le_of_pred_lt hless), fun hstop => ?_⟩
            obtain ⟨k, hk, after, feed, popped, htold, hsent, hlen, hrun⟩ := hends hstop
            exact ⟨k, hk, after, feed, _, htold, hserved.trans hsent, hlen, hrun⟩
      | true =>
          -- the hypothetical rest of the moves, had it been told to go on
          have hzeros : (List.replicate dest.length (0 : Int8)).length = size := by
            rw [List.length_replicate, hdest]
          obtain ⟨next, hresume, hnext⟩ := hproceed _ hzeros
          obtain ⟨n, last, hpulls, _⟩ := h.exists_pulls hnext hrest
          have hnone : p.sink.feed.ring.len = 0 := by simpa [SlotRing.isEmpty] using hempty
          refine ⟨n + 1, last, .pull hadvance hzeros hresume hpulls, .inr ⟨?_, fun hstop => ?_⟩⟩
          · rw [hnone]
            exact Nat.succ_pos n
          obtain ⟨k, hk, after, hended, htold⟩ := hterminate _ hzeros
          obtain ⟨idle, hidle, hrun⟩ := h.moveAll_told
            (p := { p with sink := { p.sink with engine := some after, feed := _ } })
            hrest rfl htold
          rw [Call.moveAll, Call.move_of_end hengine hadvance hp hempty hstop hended, hdest]
          exact ⟨k - rest.length, (Nat.sub_le _ _).trans hk, idle, p.sink.feed, [], hidle,
            .refl hp, hnone, hrun⟩

end Lively

end IqTransmit
