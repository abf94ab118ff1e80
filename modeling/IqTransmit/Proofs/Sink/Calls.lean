import IqTransmit.Proofs.Sink.Flow
import IqTransmit.Sink.Call

/-!
What a call of the fill side does between its own steps. While it waits, and in every gap, others
drain the ring and change the engine, and nothing else. A call is reasoned about by how it ends: a
condition on its result and the state then, and one on a halt and the state that it leaves.
-/

namespace IqTransmit

variable {E α β : Type}

namespace TransmitSink

variable {s t u : TransmitSink E}

/-- Others have moved: the feed was drained, and the engine may be another. -/
structure Moved (s t : TransmitSink E) : Prop where
  drained : s.feed.Drained t.feed
  frame : t = { s with engine := t.engine, feed := t.feed }
  bound : t.engine.isSome = s.engine.isSome

/-- Others have moved, but the ring is as it was. -/
structure Asked (s t : TransmitSink E) : Prop extends Moved s t where
  ring_eq : t.feed.ring = s.feed.ring

theorem Moved.refl (s : TransmitSink E) : Moved s s := ⟨.refl, rfl, rfl⟩

theorem Asked.refl (s : TransmitSink E) : Asked s s := ⟨.refl s, rfl⟩

theorem Moved.trans (hst : Moved s t) (htu : Moved t u) : Moved s u := by
  refine ⟨hst.drained.trans htu.drained, ?_, htu.bound.trans hst.bound⟩
  rw [htu.frame, hst.frame]

theorem Asked.trans (hst : Asked s t) (htu : Asked t u) : Asked s u :=
  ⟨hst.toMoved.trans htu.toMoved, htu.ring_eq.trans hst.ring_eq⟩

theorem asked_report (s : TransmitSink E) (notice : Notice) : Asked s (s.report notice) :=
  ⟨⟨.report notice .refl, rfl, rfl⟩, rfl⟩

theorem moved_of_drain {drainer : Drainer} {dest : List Int8} {delivery : Delivery}
    (he : drain drainer dest s = .ok delivery t) : Moved s t := by
  simp only [drain] at he
  cases hd : Feed.drain drainer dest s.feed with
  | error fault g =>
      rw [hd] at he
      cases he
  | ok answer g =>
      rw [hd] at he
      cases he
      exact ⟨.drain .refl hd, rfl, rfl⟩

section Moved

variable (h : Moved s t)
include h

theorem Moved.scratch_eq : t.scratch = s.scratch := by rw [h.frame]

theorem Moved.fillOffset_eq : t.fillOffset = s.fillOffset := by rw [h.frame]

theorem Moved.phase_eq : t.phase = s.phase := by rw [h.frame]

theorem Moved.config_eq : t.config = s.config := by rw [h.frame]

theorem Moved.pending_eq : t.pending = s.pending := by
  rw [pending, h.scratch_eq, h.fillOffset_eq, pending]

end Moved

end TransmitSink

open TransmitSink (Moved Asked asked_report)

/-! ## The moves of an engine -/

/-- An engine's action pulls from the feed and never faults on a sound ring. -/
theorem Action.run_drained (action : Action E α) {f : Feed} (hf : f.ring.Sound) :
    ∃ result engine g, action.run Feed.pull f = .ok (result, engine) g ∧ f.Drained g := by
  induction action generalizing f with
  | finish result engine => exact ⟨result, engine, f, rfl, .refl⟩
  | pull dest resume ih =>
      obtain ⟨delivery, g, _, he, hflow, _⟩ := Feed.drain_flow hf .engine dest
      obtain ⟨result, engine, h, hrun, hdrained⟩ := ih (.delivered delivery) hflow.sound
      refine ⟨result, engine, h, ?_, (Feed.Drained.refl.drain he).trans hdrained⟩
      have hpull : Feed.pull dest f = .ok (.delivered delivery) g := by rw [Feed.pull, he]
      rw [Action.run, hpull]
      exact hrun

namespace Call

variable {call : Call E α} {p q : Progress E}
variable {done done' : α → Progress E → Prop} {halted halted' : Halt → Progress E → Prop}

/-! ## How a call ends -/

/-- No halt at all. -/
abbrev never : Halt → Progress E → Prop := fun _ _ => False

/-- A call from `p` ends with a result and a state for which `done` holds, or with a halt and a
state for which `halted` holds. -/
def Ends (call : Call E α) (p : Progress E) (done : α → Progress E → Prop)
    (halted : Halt → Progress E → Prop) : Prop :=
  match call p with
  | .ok a q => done a q
  | .error halt q => halted halt q

theorem Ends.of_ok {a : α} (he : call p = .ok a q) (h : done a q) : Ends call p done halted := by
  simp only [Ends]
  rw [he]
  exact h

theorem Ends.of_error {halt : Halt} (he : call p = .error halt q) (h : halted halt q) :
    Ends call p done halted := by
  simp only [Ends]
  rw [he]
  exact h

theorem Ends.ok {a : α} (h : Ends call p done halted) (he : call p = .ok a q) : done a q := by
  simp only [Ends] at h
  rw [he] at h
  exact h

theorem Ends.error {halt : Halt} (h : Ends call p done halted) (he : call p = .error halt q) :
    halted halt q := by
  simp only [Ends] at h
  rw [he] at h
  exact h

theorem Ends.congr {other : Call E α} (h : Ends call p done halted) (he : other p = call p) :
    Ends other p done halted := by
  simp only [Ends, he]
  exact h

theorem Ends.imp (h : Ends call p done halted) (hdone : ∀ a q, done a q → done' a q)
    (hhalted : ∀ halt q, halted halt q → halted' halt q) : Ends call p done' halted' := by
  simp only [Ends] at h ⊢
  cases he : call p with
  | ok a q =>
      rw [he] at h
      exact hdone a q h
  | error halt q =>
      rw [he] at h
      exact hhalted halt q h

theorem Ends.and (h : Ends call p done halted) (h' : Ends call p done' halted') :
    Ends call p (fun a q => done a q ∧ done' a q)
      (fun halt q => halted halt q ∧ halted' halt q) := by
  simp only [Ends] at h h' ⊢
  cases he : call p with
  | ok a q =>
      rw [he] at h h'
      exact ⟨h, h'⟩
  | error halt q =>
      rw [he] at h h'
      exact ⟨h, h'⟩

theorem bind_of_ok {f : α → Call E β} {a : α} (he : call p = .ok a q) :
    (call >>= f) p = f a q := by
  simp only [Bind.bind, EStateM.bind, he]

theorem bind_of_error {f : α → Call E β} {halt : Halt} (he : call p = .error halt q) :
    (call >>= f) p = .error halt q := by
  simp only [Bind.bind, EStateM.bind, he]

theorem Ends.bind {f : α → Call E β} {done : β → Progress E → Prop}
    (h : Ends call p (fun a q => Ends (f a) q done halted) halted) :
    Ends (call >>= f) p done halted := by
  cases he : call p with
  | ok a q =>
      have hf := h.ok he
      simp only [Ends] at hf ⊢
      rw [bind_of_ok he]
      exact hf
  | error halt q => exact .of_error (bind_of_error he) (h.error he)

/-- Two calls in a row: what the first ends with is where the second begins. -/
theorem Ends.seq {f : α → Call E β} {next : β → Progress E → Prop} (h : Ends call p done halted)
    (hdone : ∀ a q, done a q → Ends (f a) q next halted')
    (hhalted : ∀ halt q, halted halt q → halted' halt q) : Ends (call >>= f) p next halted' :=
  .bind (h.imp hdone hhalted)

theorem Ends.seq_never {f : α → Call E β} {next : β → Progress E → Prop}
    (h : Ends call p done never) (hdone : ∀ a q, done a q → Ends (f a) q next halted) :
    Ends (call >>= f) p next halted :=
  h.seq hdone fun _ _ hnever => hnever.elim

theorem Ends.step {f : α → Call E β} {a : α} {next : β → Progress E → Prop}
    (he : call p = .ok a q) (h : Ends (f a) q next halted) : Ends (call >>= f) p next halted :=
  .bind (.of_ok he h)

theorem Ends.pure {a : α} (h : done a p) : Ends (pure a : Call E α) p done halted := h

/-- A call that returns, with a result or with an error of the sink. -/
theorem attempt_eq_ok {result : Except SinkError α} (he : attempt call p = .ok result q) :
    (∃ a, result = .ok a ∧ call p = .ok a q) ∨
      (∃ error, result = .error error ∧ call p = .error (.failed error) q) := by
  simp only [attempt] at he
  cases hcall : call p with
  | ok a r =>
      rw [hcall] at he
      cases he
      exact .inl ⟨a, rfl, rfl⟩
  | error halt r =>
      rw [hcall] at he
      cases halt with
      | failed error =>
          cases he
          exact .inr ⟨error, rfl, rfl⟩
      | fault fault => cases he
      | waiting => cases he

theorem attempt_congr {other : Call E α} (he : other p = call p) :
    attempt other p = attempt call p := by
  simp only [attempt, he]

theorem attempt_of_fault {fault : Fault} (he : call p = .error (.fault fault) q) :
    attempt call p = .error (.fault fault) q := by
  simp only [attempt, he]

theorem attempt_eq_waiting (he : attempt call p = .error .waiting q) :
    call p = .error .waiting q := by
  simp only [attempt] at he
  cases hcall : call p with
  | ok a r =>
      rw [hcall] at he
      cases he
  | error halt r =>
      rw [hcall] at he
      cases halt with
      | failed error => cases he
      | fault fault => cases he
      | waiting =>
          cases he
          rfl

/-- What an attempt makes of a halt: an error of the sink becomes a result. -/
def Attempted (done : Except SinkError α → Progress E → Prop) (halted : Halt → Progress E → Prop) :
    Halt → Progress E → Prop
  | .failed error, q => done (.error error) q
  | .fault fault, q => halted (.fault fault) q
  | .waiting, q => halted .waiting q

theorem Ends.attempt {done : Except SinkError α → Progress E → Prop}
    (h : Ends call p (fun a => done (.ok a)) (Attempted done halted)) :
    Ends (attempt call) p done halted := by
  simp only [Ends, Call.attempt] at *
  cases hcall : call p with
  | ok a q =>
      rw [hcall] at h
      exact h
  | error halt q =>
      rw [hcall] at h
      cases halt with
      | failed error => exact h
      | fault fault => exact h
      | waiting => exact h

/-! ## Actions of the engine and pushes -/

theorem sink_eq (p : Progress E) : (sink : Call E (TransmitSink E)) p = .ok p.sink p := rfl

theorem act_ends (action : E → Action E α) (absent : α) (hp : p.sink.feed.ring.Sound) :
    Ends (act action absent) p (fun _ q => Moved p.sink q.sink) never := by
  simp only [Ends, act]
  cases hengine : p.sink.engine with
  | none => exact .refl p.sink
  | some engine =>
      obtain ⟨result, after, feed, hrun, hdrained⟩ := (action engine).run_drained hp
      simp only [hrun]
      exact ⟨hdrained, rfl, by simp [hengine]⟩

theorem pushScratch_of_room (hp : p.sink.feed.ring.Sound) (hroom : p.sink.feed.ring.hasRoom = true)
    (hscratch : p.sink.scratch.length = p.sink.feed.ring.slotSize) :
    pushScratch p = .ok true
      { p with sink := { p.sink with feed := p.sink.feed.enqueue p.sink.scratch } } := by
  rw [pushScratch, Feed.push_of_room hp hroom hscratch]

/-! ## Questions -/

/-- One turn of a wait: over at an answer of yes, and else a look before the rest. -/
def turn (done : Call E Bool) (look rest : Call E Unit) : Call E Unit := do
  if ← done then pure ()
  else
    look
    rest

variable {asked : Call E Bool} {look : Call E Unit}
variable {answers : Bool → SlotRing → Prop} {gaveUp : Halt → TransmitSink E → Prop}

/-- A question and a look that leave the ring alone. The question never fails, and what it answers
is true of the ring; the look may give up. -/
structure Watches (asked : Call E Bool) (look : Call E Unit) (answers : Bool → SlotRing → Prop)
    (gaveUp : Halt → TransmitSink E → Prop) : Prop where
  asked : ∀ p : Progress E,
    Ends asked p (fun b q => Asked p.sink q.sink ∧ answers b q.sink.feed.ring) never
  looked : ∀ p : Progress E,
    Ends look p (fun _ q => Asked p.sink q.sink)
      (fun halt q => Asked p.sink q.sink ∧ gaveUp halt q.sink)

theorem Watches.turn_ends (h : Watches asked look answers gaveUp) {rest : Call E Unit}
    {done : Unit → Progress E → Prop}
    (hyes : ∀ q, Moved p.sink q.sink → answers true q.sink.feed.ring → done () q)
    (hgave : ∀ halt q, Moved p.sink q.sink → answers false q.sink.feed.ring →
      gaveUp halt q.sink → halted halt q)
    (hno : ∀ q, Moved p.sink q.sink → answers false q.sink.feed.ring → Ends rest q done halted) :
    Ends (turn asked look rest) p done halted := by
  refine (h.asked p).seq_never ?_
  rintro b q ⟨hq, hb⟩
  cases b with
  | true => exact hyes q hq.toMoved hb
  | false =>
      refine (h.looked q).seq ?_ ?_
      · intro _ r hr
        exact hno r (hq.trans hr).toMoved (hr.ring_eq ▸ hb)
      · rintro halt r ⟨hr, hg⟩
        exact hgave halt r (hq.trans hr).toMoved (hr.ring_eq ▸ hb) hg

/-! ## Moves of others -/

variable [TransferEngine E]

theorem move_ends (m : Move) (hp : p.sink.feed.ring.Sound) :
    Ends (move m) p (fun _ q => Moved p.sink q.sink) never := by
  cases m with
  | engine => exact act_ends _ _ hp
  | drain dest =>
      obtain ⟨delivery, g, _, he, _, _⟩ := Feed.drain_flow hp .other dest
      have hdrain : TransmitSink.drain .other dest p.sink =
          .ok delivery { p.sink with feed := g } := by
        rw [TransmitSink.drain, he]
      simp only [Ends, move]
      simp only [hdrain]
      exact ⟨.drain .refl he, rfl, rfl⟩

theorem moveAll_cons (m : Move) (rest : List Move) :
    (moveAll (m :: rest) : Call E Unit) = (do move m; moveAll rest) := by
  funext p
  rw [moveAll]
  cases he : move m p with
  | ok a q => rw [bind_of_ok he]
  | error halt q => rw [bind_of_error he]

theorem moveAll_ends (moves : List Move) (hp : p.sink.feed.ring.Sound) :
    Ends (moveAll moves) p (fun _ q => Moved p.sink q.sink) never := by
  induction moves generalizing p with
  | nil => exact Moved.refl p.sink
  | cons m rest ih =>
      rw [moveAll_cons]
      refine (move_ends m hp).seq_never ?_
      intro _ q hq
      exact (ih (hq.drained.sound hp)).imp (fun _ _ hr => hq.trans hr) (fun _ _ hn => hn)

theorem gap_ends (hp : p.sink.feed.ring.Sound) :
    Ends gap p (fun _ q => Moved p.sink q.sink) never := by
  simp only [Ends, gap]
  cases p.gaps with
  | nil => exact Moved.refl p.sink
  | cons moves rest => exact moveAll_ends (p := { p with gaps := rest }) moves hp

theorem askEngine_ends (p : Progress E) :
    Ends askEngine p (fun _ q => Asked p.sink q.sink) never := by
  simp only [Ends, askEngine]
  cases hengine : p.sink.engine with
  | none => exact .refl p.sink
  | some engine => exact ⟨⟨.refl, rfl, by simp [hengine]⟩, rfl⟩

/-! ## Waits -/

/-- The halt of a wait that was to begin after its limit. -/
def OverLimit (limit : Option Duration) (halt : Halt) : Prop :=
  ∃ time, limit = some time ∧ halt = .failed (.stopTimeout time)

theorem pause_ends (limit : Option Duration) (next : Pause) (hp : p.sink.feed.ring.Sound) :
    Ends (pause limit next) p (fun _ q => Moved p.sink q.sink)
      (fun halt q => Asked p.sink q.sink ∧ OverLimit limit halt) := by
  have hmoves : Ends (moveAll next.moves) p (fun _ q => Moved p.sink q.sink)
      (fun halt q => Asked p.sink q.sink ∧ OverLimit limit halt) :=
    (moveAll_ends next.moves hp).imp (fun _ _ h => h) (fun _ _ h => h.elim)
  simp only [pause]
  cases limit with
  | none => exact hmoves
  | some time =>
      simp only
      split
      · exact ⟨asked_report p.sink _, time, rfl, rfl⟩
      · exact hmoves

/-- The pause at hand, with the rest still to come. -/
def takePause (limit : Option Duration) (next : Pause) (rest : List Pause) : Call E Unit :=
  fun p => pause limit next { p with pauses := rest }

theorem takePause_ends (limit : Option Duration) (next : Pause) (rest : List Pause)
    (hp : p.sink.feed.ring.Sound) :
    Ends (takePause limit next rest) p (fun _ q => Moved p.sink q.sink)
      (fun halt q => Asked p.sink q.sink ∧ OverLimit limit halt) :=
  pause_ends (p := { p with pauses := rest }) limit next hp

theorem waitThrough_nil (done : Call E Bool) (look : Call E Unit) (limit : Option Duration) :
    waitThrough done look limit [] = turn done look (throw .waiting) := by
  funext p
  simp only [waitThrough, turn]
  cases hd : done p with
  | error halt q => rw [bind_of_error hd]
  | ok b q =>
      rw [bind_of_ok hd]
      cases b with
      | true => rfl
      | false =>
          simp only [Bool.false_eq_true, if_false]
          cases hl : look q with
          | error halt r => rw [bind_of_error hl]
          | ok _ r =>
              rw [bind_of_ok hl]
              rfl

theorem waitThrough_cons (done : Call E Bool) (look : Call E Unit) (limit : Option Duration)
    (next : Pause) (rest : List Pause) :
    waitThrough done look limit (next :: rest) = turn done look (do
      takePause limit next rest
      waitThrough done look limit rest) := by
  funext p
  rw [waitThrough]
  simp only [turn]
  cases hd : done p with
  | error halt q => rw [bind_of_error hd]
  | ok b q =>
      rw [bind_of_ok hd]
      cases b with
      | true => rfl
      | false =>
          simp only [Bool.false_eq_true, if_false]
          cases hl : look q with
          | error halt r => rw [bind_of_error hl]
          | ok _ r =>
              rw [bind_of_ok hl]
              simp only
              cases hw : takePause limit next rest r with
              | error halt u =>
                  rw [bind_of_error hw]
                  rw [takePause] at hw
                  rw [hw]
              | ok _ u =>
                  rw [bind_of_ok hw]
                  rw [takePause] at hw
                  rw [hw]

/-- What holds at each turn of a wait, and what after an answer of no, lead to what holds at its
end. -/
theorem waitThrough_rule (head unmet : List Pause → Progress E → Prop) {limit : Option Duration}
    {done : Unit → Progress E → Prop}
    (hturn : ∀ pauses p, head pauses p → Ends asked p
      (fun b q => (b = true → done () q) ∧
        (b = false → Ends look q (fun _ r => unmet pauses r) halted)) halted)
    (hstuck : ∀ p, unmet [] p → halted .waiting p)
    (hpause : ∀ next rest p, unmet (next :: rest) p →
      Ends (takePause limit next rest) p (fun _ q => head rest q) halted)
    {pauses : List Pause} (hp : head pauses p) :
    Ends (waitThrough asked look limit pauses) p done halted := by
  induction pauses generalizing p with
  | nil =>
      rw [waitThrough_nil]
      refine (hturn [] p hp).seq ?_ fun _ _ h => h
      intro b q hq
      cases b with
      | true => exact hq.1 rfl
      | false => exact (hq.2 rfl).seq (fun _ r hr => hstuck r hr) fun _ _ h => h
  | cons next rest ih =>
      rw [waitThrough_cons]
      refine (hturn _ p hp).seq ?_ fun _ _ h => h
      intro b q hq
      cases b with
      | true => exact hq.1 rfl
      | false =>
          refine (hq.2 rfl).seq (fun _ r hr => ?_) fun _ _ h => h
          exact (hpause next rest r hr).seq (fun _ _ hu => ih hu) fun _ _ h => h

/-- A wait ends when the answer is yes. It gives up, or is left waiting, at an answer of no. -/
theorem Watches.waitThrough_ends (h : Watches asked look answers gaveUp)
    (limit : Option Duration) (pauses : List Pause) (hp : p.sink.feed.ring.Sound) :
    Ends (waitThrough asked look limit pauses) p
      (fun _ q => Moved p.sink q.sink ∧ answers true q.sink.feed.ring)
      (fun halt q => Moved p.sink q.sink ∧ answers false q.sink.feed.ring ∧
        (halt = .waiting ∨ OverLimit limit halt ∨ gaveUp halt q.sink)) := by
  induction pauses generalizing p with
  | nil =>
      rw [waitThrough_nil]
      apply h.turn_ends
      · exact fun q hq hb => ⟨hq, hb⟩
      · exact fun halt q hq hb hg => ⟨hq, hb, .inr (.inr hg)⟩
      · exact fun q hq hb => ⟨hq, hb, .inl rfl⟩
  | cons next rest ih =>
      rw [waitThrough_cons]
      apply h.turn_ends
      · exact fun q hq hb => ⟨hq, hb⟩
      · exact fun halt q hq hb hg => ⟨hq, hb, .inr (.inr hg)⟩
      · intro q hq hb
        have hqs := hq.drained.sound hp
        refine (takePause_ends limit next rest hqs).seq ?_ ?_
        · intro _ r hr
          have hpr : Moved p.sink r.sink := hq.trans hr
          exact (ih (hpr.drained.sound hp)).imp (fun _ _ hu => ⟨hpr.trans hu.1, hu.2⟩)
            (fun _ _ hu => ⟨hpr.trans hu.1, hu.2⟩)
        · rintro halt r ⟨hr, hover⟩
          exact ⟨hq.trans hr.toMoved, hr.ring_eq ▸ hb, .inr (.inl hover)⟩

/-- A wait for room ends with room, and is given up or left only at a full ring. -/
theorem awaitingRoom_ends (gaveUp : Halt → TransmitSink E → Prop)
    (hlook : ∀ p : Progress E, Ends look p (fun _ q => Asked p.sink q.sink)
      (fun halt q => Asked p.sink q.sink ∧ gaveUp halt q.sink))
    (limit : Option Duration) (hp : p.sink.feed.ring.Sound) :
    Ends (waitUntil hasRoom look limit) p
      (fun _ q => Moved p.sink q.sink ∧ q.sink.feed.ring.hasRoom = true)
      (fun halt q => Moved p.sink q.sink ∧ q.sink.feed.ring.hasRoom = false ∧
        (halt = .waiting ∨ OverLimit limit halt ∨ gaveUp halt q.sink)) := by
  have hwatches : Watches hasRoom look (fun b ring => ring.hasRoom = b) gaveUp :=
    ⟨fun p => .of_ok rfl ⟨.refl p.sink, rfl⟩, hlook⟩
  exact hwatches.waitThrough_ends limit p.pauses hp

end Call

end IqTransmit
