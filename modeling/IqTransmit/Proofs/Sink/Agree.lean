import IqTransmit.Proofs.Sink.Alike

/-!
Two runs of a call, on two sinks that are alike, during which others do the same. They agree if they
end in the same way with sinks that are alike again. A call is taken apart as one run of it is; its
waits, and whatever others do, keep two sinks alike whatever is known of their scratch slots.
-/

namespace IqTransmit.Call

variable {E α β γ : Type} {base : Baseline} {known : Nat}

/-- Two sinks that are alike during a call, with the same pauses and gaps still to come. -/
structure Paired (base : Baseline) (known : Nat) (p q : Progress E) : Prop where
  sink : p.sink.Alike base known q.sink
  pauses_eq : p.pauses = q.pauses
  gaps_eq : p.gaps = q.gaps

/-- They are alike, as far as anything between two calls depends on them. -/
def Abreast (base : Baseline) (p q : Progress E) : Prop := ∃ known, Paired base known p q

/-- Two calls end with the same result, and with `done` of what they leave, or with the same halt,
and with `halted` of what they leave. -/
inductive Agree (call other : Call E α) (p q : Progress E)
    (done : α → Progress E → Progress E → Prop) (halted : Progress E → Progress E → Prop) :
    Prop where
  | ok {a : α} {r t : Progress E} :
      call p = .ok a r → other q = .ok a t → done a r t → Agree call other p q done halted
  | error {halt : Halt} {r t : Progress E} :
      call p = .error halt r → other q = .error halt t → halted r t →
      Agree call other p q done halted

variable {call other : Call E α} {p q r t : Progress E}
variable {done done' : α → Progress E → Progress E → Prop}
variable {halted halted' : Progress E → Progress E → Prop}

theorem Agree.imp (h : Agree call other p q done halted)
    (hdone : ∀ a r t, done a r t → done' a r t) (hhalted : ∀ r t, halted r t → halted' r t) :
    Agree call other p q done' halted' := by
  cases h with
  | ok hp hq h => exact .ok hp hq (hdone _ _ _ h)
  | error hp hq h => exact .error hp hq (hhalted _ _ h)

/-- What is known of one of the runs by itself comes on top. -/
theorem Agree.and_ends (h : Agree call other p q done halted)
    {ended : α → Progress E → Prop} {cut : Halt → Progress E → Prop} (he : Ends call p ended cut) :
    Agree call other p q (fun a r t => done a r t ∧ ended a r) halted := by
  cases h with
  | ok hp hq h => exact .ok hp hq ⟨h, he.ok hp⟩
  | error hp hq h => exact .error hp hq h

/-- Two steps that return, each with a result of its own. -/
theorem Agree.step {call : Call E α} {other : Call E β} {f : α → Call E γ} {g : β → Call E γ}
    {a : α} {b : β} {next : γ → Progress E → Progress E → Prop} (hp : call p = .ok a r)
    (hq : other q = .ok b t) (h : Agree (f a) (g b) r t next halted) :
    Agree (call >>= f) (other >>= g) p q next halted := by
  cases h with
  | ok hr ht h => exact .ok ((bind_of_ok hp).trans hr) ((bind_of_ok hq).trans ht) h
  | error hr ht h => exact .error ((bind_of_ok hp).trans hr) ((bind_of_ok hq).trans ht) h

/-- Calls in a row: where the first ones leave off the next ones begin. -/
theorem Agree.seq {f g : α → Call E β} {next : β → Progress E → Progress E → Prop}
    (h : Agree call other p q done halted)
    (hdone : ∀ a r t, done a r t → Agree (f a) (g a) r t next halted')
    (hhalted : ∀ r t, halted r t → halted' r t) :
    Agree (call >>= f) (other >>= g) p q next halted' := by
  cases h with
  | ok hp hq h => exact .step hp hq (hdone _ _ _ h)
  | error hp hq h => exact .error (bind_of_error hp) (bind_of_error hq) (hhalted _ _ h)

/-- Calls are alike that come to the same from where they are made. -/
theorem Agree.of_eq {call' other' : Call E α} {p' q' : Progress E}
    (h : Agree call' other' p' q' done halted) (hp : call p = call' p')
    (hq : other q = other' q') : Agree call other p q done halted := by
  cases h with
  | ok hp' hq' h => exact .ok (hp.trans hp') (hq.trans hq') h
  | error hp' hq' h => exact .error (hp.trans hp') (hq.trans hq') h

theorem Agree.attempt {rel : Progress E → Progress E → Prop}
    (h : Agree call other p q (fun _ => rel) rel) :
    Agree (attempt call) (attempt other) p q (fun _ => rel) rel := by
  cases h with
  | @ok a r t hp hq h =>
      have hp' : Call.attempt call p = .ok (.ok a) r := by simp only [Call.attempt, hp]
      exact .ok hp' (by simp only [Call.attempt, hq]) h
  | @error halt r t hp hq h =>
      cases halt with
      | failed error =>
          have hp' : Call.attempt call p = .ok (.error error) r := by simp only [Call.attempt, hp]
          exact .ok hp' (by simp only [Call.attempt, hq]) h
      | fault fault =>
          have hp' : Call.attempt call p = .error (.fault fault) r := by
            simp only [Call.attempt, hp]
          exact .error hp' (by simp only [Call.attempt, hq]) h
      | waiting =>
          have hp' : Call.attempt call p = .error .waiting r := by simp only [Call.attempt, hp]
          exact .error hp' (by simp only [Call.attempt, hq]) h

/-! ### Calls that keep sinks alike -/

theorem Paired.abreast (h : Paired base known p q) : Abreast base p q := ⟨known, h⟩

theorem Paired.withSink (h : Paired base known p q) {s s' : TransmitSink E} {known' : Nat}
    (hs : s.Alike base known' s') :
    Paired base known' { p with sink := s } { q with sink := s' } :=
  ⟨hs, h.pauses_eq, h.gaps_eq⟩

/-- Two runs of a call agree and keep the sinks alike, whatever is known of the scratch slots. -/
structure Keeps (base : Baseline) (call : Call E α) : Prop where
  agree : ∀ {known : Nat} {p q : Progress E}, Paired base known p q →
    Agree call call p q (fun _ => Paired base known) (Paired base known)

theorem keeps_pure (a : α) : Keeps base (pure a : Call E α) :=
  ⟨fun h => .ok rfl rfl h⟩

theorem keeps_throw (halt : Halt) : Keeps base (throw halt : Call E α) :=
  ⟨fun h => .error rfl rfl h⟩

theorem keeps_report {notice : Notice}
    (hnotice : .reported notice = (Event.reported notice).shift base.stats) :
    Keeps base (report notice : Call E Unit) :=
  ⟨fun h => .ok rfl rfl (h.withSink (h.sink.report hnotice))⟩

theorem Keeps.bind {f : α → Call E β} (hcall : Keeps base call) (hf : ∀ a, Keeps base (f a)) :
    Keeps base (call >>= f) :=
  ⟨fun h => (hcall.agree h).seq (fun a _ _ hnext => (hf a).agree hnext) fun _ _ hcut => hcut⟩

theorem keeps_act (action : E → Action E α) (absent : α) : Keeps base (act action absent) := by
  constructor
  intro known p q h
  have hbound : q.sink.engine = p.sink.engine := h.sink.engine_eq.symm
  cases hengine : p.sink.engine with
  | none =>
      have hp : act action absent p = .ok absent p := by simp only [act, hengine]
      have hq : act action absent q = .ok absent q := by simp only [act, hbound, hengine]
      exact .ok hp hq h
  | some engine =>
      obtain ⟨result, after, f, g, hf, hg, hfeed⟩ := h.sink.feed.runAction (action engine)
      have hp : act action absent p =
          .ok result { p with sink := { p.sink with engine := some after, feed := f } } := by
        simp only [act, hengine, hf]
      have hq : act action absent q =
          .ok result { q with sink := { q.sink with engine := some after, feed := g } } := by
        simp only [act, hbound, hengine, hg]
      exact .ok hp hq (h.withSink { h.sink.withFeed hfeed with engine_eq := rfl })

theorem keeps_hasRoom : Keeps base (hasRoom : Call E Bool) := by
  constructor
  intro known p q h
  have hq : hasRoom q = .ok p.sink.feed.ring.hasRoom q := by
    rw [hasRoom, h.sink.feed.hasRoom_eq]
  exact .ok rfl hq h

theorem Keeps.turn {asked : Call E Bool} {look rest : Call E Unit} (hasked : Keeps base asked)
    (hlook : Keeps base look) (hrest : Keeps base rest) : Keeps base (turn asked look rest) := by
  apply hasked.bind
  intro answer
  cases answer with
  | true => exact keeps_pure ()
  | false => exact hlook.bind fun _ => hrest

variable [TransferEngine E]

theorem keeps_move (m : Move) : Keeps base (move m : Call E Unit) := by
  cases m with
  | engine => exact keeps_act TransferEngine.advance ()
  | drain dest =>
      constructor
      intro known p q h
      obtain ⟨delivery, s, t, hs, ht, hnext⟩ := h.sink.drain .other dest
      have hp : move (.drain dest) p = .ok () { p with sink := s } := by simp only [move, hs]
      have hq : move (.drain dest) q = .ok () { q with sink := t } := by simp only [move, ht]
      exact .ok hp hq (h.withSink hnext)

theorem keeps_moveAll (moves : List Move) : Keeps base (moveAll moves : Call E Unit) := by
  induction moves with
  | nil => exact keeps_pure ()
  | cons m rest ih =>
      rw [moveAll_cons]
      exact (keeps_move m).bind fun _ => ih

theorem keeps_gap : Keeps base (gap : Call E Unit) := by
  constructor
  intro known p q h
  have hgaps : q.gaps = p.gaps := h.gaps_eq.symm
  cases hmoves : p.gaps with
  | nil =>
      have hp : gap p = .ok () p := by simp only [gap, hmoves]
      have hq : gap q = .ok () q := by simp only [gap, hgaps, hmoves]
      exact .ok hp hq h
  | cons moves rest =>
      have hp : gap p = moveAll moves { p with gaps := rest } := by simp only [gap, hmoves]
      have hq : gap q = moveAll moves { q with gaps := rest } := by
        simp only [gap, hgaps, hmoves]
      have hrest : Paired base known { p with gaps := rest } { q with gaps := rest } :=
        ⟨h.sink, h.pauses_eq, rfl⟩
      exact ((keeps_moveAll moves).agree hrest).of_eq hp hq

theorem keeps_askEngine : Keeps base (askEngine : Call E Bool) := by
  constructor
  intro known p q h
  have hbound : q.sink.engine = p.sink.engine := h.sink.engine_eq.symm
  cases hengine : p.sink.engine with
  | none =>
      have hp : askEngine p = .ok false p := by simp only [askEngine, hengine]
      have hq : askEngine q = .ok false q := by simp only [askEngine, hbound, hengine]
      exact .ok hp hq h
  | some engine =>
      have hp : askEngine p = .ok (TransferEngine.poll engine).1 { p with
          sink := { p.sink with engine := some (TransferEngine.poll engine).2 } } := by
        simp only [askEngine, hengine]
      have hq : askEngine q = .ok (TransferEngine.poll engine).1 { q with
          sink := { q.sink with engine := some (TransferEngine.poll engine).2 } } := by
        simp only [askEngine, hbound, hengine]
      exact .ok hp hq (h.withSink { h.sink with engine_eq := rfl })

/-! ### Waits -/

theorem keeps_pause (limit : Option Duration) (next : Pause) :
    Keeps base (pause limit next : Call E Unit) := by
  simp only [pause]
  cases limit with
  | none => exact keeps_moveAll next.moves
  | some limit =>
      simp only
      split
      · exact (keeps_report rfl).bind fun _ => keeps_throw _
      · exact keeps_moveAll next.moves

theorem keeps_takePause (limit : Option Duration) (next : Pause) (rest : List Pause) :
    Keeps base (takePause limit next rest : Call E Unit) := by
  constructor
  intro known p q h
  have hrest : Paired base known { p with pauses := rest } { q with pauses := rest } :=
    ⟨h.sink, rfl, h.gaps_eq⟩
  exact ((keeps_pause limit next).agree hrest).of_eq rfl rfl

theorem Keeps.waitThrough {asked : Call E Bool} {look : Call E Unit} (hasked : Keeps base asked)
    (hlook : Keeps base look) (limit : Option Duration) (pauses : List Pause) :
    Keeps base (waitThrough asked look limit pauses) := by
  induction pauses with
  | nil =>
      rw [waitThrough_nil]
      exact hasked.turn hlook (keeps_throw .waiting)
  | cons next rest ih =>
      rw [waitThrough_cons]
      exact hasked.turn hlook ((keeps_takePause limit next rest).bind fun _ => ih)

theorem Keeps.waitUntil {asked : Call E Bool} {look : Call E Unit} (hasked : Keeps base asked)
    (hlook : Keeps base look) (limit : Option Duration) :
    Keeps base (waitUntil asked look limit) := by
  constructor
  intro known p q h
  have hp : Call.waitUntil asked look limit p = Call.waitThrough asked look limit p.pauses p := rfl
  have hq : Call.waitUntil asked look limit q = Call.waitThrough asked look limit p.pauses q := by
    rw [h.pauses_eq]
    rfl
  exact ((hasked.waitThrough hlook limit p.pauses).agree h).of_eq hp hq

theorem keeps_lookToWork : Keeps base (lookToWork : Call E Unit) := by
  constructor
  intro known p q h
  apply Agree.step (sink_eq p) (sink_eq q)
  rw [← h.sink.phase_eq, ← h.sink.queued_eq]
  by_cases hphase : p.sink.phase = .streaming
  · rw [if_pos hphase]
    refine Keeps.agree (keeps_askEngine.bind ?_) h
    intro streams
    cases streams with
    | true => exact keeps_pure ()
    | false => exact (keeps_report rfl).bind fun _ => keeps_throw _
  · rw [if_neg hphase]
    exact (keeps_pure ()).agree h

theorem keeps_awaitRoom : Keeps base (awaitRoom : Call E Unit) :=
  keeps_hasRoom.waitUntil keeps_lookToWork none

theorem keeps_awaitRoomToStop : Keeps base (awaitRoomToStop : Call E Unit) := by
  have hlook : Keeps base
      (do unless ← askEngine do fail .engineStopped : Call E Unit) := by
    apply keeps_askEngine.bind
    intro streams
    cases streams with
    | true => exact keeps_pure ()
    | false => exact keeps_throw _
  constructor
  intro known p q h
  apply Agree.step (sink_eq p) (sink_eq q)
  rw [← h.sink.config_eq]
  exact (keeps_hasRoom.waitUntil hlook _).agree h

theorem keeps_awaitEnd : Keeps base (awaitEnd : Call E Unit) := by
  constructor
  intro known p q h
  apply Agree.step (sink_eq p) (sink_eq q)
  rw [← h.sink.config_eq]
  exact ((keeps_askEngine.bind fun _ => keeps_pure _).waitUntil (keeps_pure ()) _).agree h

end IqTransmit.Call
