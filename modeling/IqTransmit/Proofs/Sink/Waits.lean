import IqTransmit.Proofs.Sink.Flush

/-!
Waits by their turns. A turn of a wait asks, has no for an answer, looks, and lets others move for
one pause. A wait is some such turns, and then a question answered with yes, a look that gives up,
or a pause that was to begin after the limit. From any of its turns on it goes on as if it had
begun there.
-/

namespace IqTransmit

variable {E α : Type}

namespace Call

/-- A call that leaves the pauses still to come as they are. -/
def KeepsPauses (call : Call E α) : Prop :=
  ∀ p a q, call p = .ok a q → q.pauses = p.pauses

theorem keepsPauses_act (action : E → Action E α) (absent : α) :
    KeepsPauses (act action absent) := by
  intro p a q he
  simp only [act] at he
  cases hengine : p.sink.engine with
  | none =>
      rw [hengine] at he
      cases he
      rfl
  | some engine =>
      rw [hengine] at he
      simp only at he
      split at he
      · cases he
      · cases he
        rfl

variable [TransferEngine E]

/-- Others have moved for the pause at hand, which began in time. -/
inductive Paused (limit : Option Duration) (p : Progress E) : Progress E → Prop where
  | inTime {next : Pause} {rest : List Pause} {q : Progress E} : p.pauses = next :: rest →
      next.InTime limit → moveAll next.moves { p with pauses := rest } = .ok () q → Paused limit p q

/-- The pause at hand was to begin at or after the limit. -/
inductive Overdue (limit : Option Duration) (p : Progress E) : Duration → Progress E → Prop where
  | late {next : Pause} {rest : List Pause} {time : Duration} : p.pauses = next :: rest →
      limit = some time → time.nanoseconds ≤ next.elapsed.nanoseconds →
      Overdue limit p time { p with pauses := rest, sink := p.sink.report (.stopLate time) }

/-- So many turns of a wait have come to nothing between `p` and another state. -/
inductive Turns (asked : Call E Bool) (look : Call E Unit) (limit : Option Duration)
    (p : Progress E) : Nat → Progress E → Prop where
  | none : Turns asked look limit p 0 p
  | turn {count : Nat} {q r s t : Progress E} : Turns asked look limit p count q →
      asked q = .ok false r → look r = .ok () s → Paused limit s t →
      Turns asked look limit p (count + 1) t

variable {asked : Call E Bool} {look : Call E Unit} {limit : Option Duration}
variable {p q r s t : Progress E} {count : Nat}

/-! ## The pauses of a wait -/

theorem keepsPauses_moveAll (moves : List Move) : KeepsPauses (E := E) (moveAll moves) := by
  intro p a q he
  induction moves generalizing p with
  | nil =>
      cases he
      rfl
  | cons m rest ih =>
      simp only [moveAll] at he
      cases hm : move m p with
      | error halt r =>
          rw [hm] at he
          cases he
      | ok _ r =>
          rw [hm] at he
          have hr : r.pauses = p.pauses := by
            cases m with
            | engine => exact keepsPauses_act _ _ _ _ _ hm
            | drain dest =>
                simp only [move] at hm
                split at hm
                · cases hm
                · cases hm
                  rfl
          exact (ih r he).trans hr

theorem takePause_of_paused {next : Pause} {rest : List Pause} (hp : p.pauses = next :: rest)
    (h : Paused limit p q) : takePause limit next rest p = .ok () q ∧ q.pauses = rest := by
  cases h with
  | inTime hpauses hnext hmoves =>
      rw [hp] at hpauses
      cases hpauses
      exact ⟨(takePause_of_inTime hnext rest p).trans hmoves,
        keepsPauses_moveAll _ _ _ _ hmoves⟩

theorem takePause_of_overdue {next : Pause} {rest : List Pause} {time : Duration}
    (hp : p.pauses = next :: rest) (h : Overdue limit p time q) :
    takePause limit next rest p = .error (.failed (.stopTimeout time)) q := by
  cases h with
  | late hpauses hlimit hlate =>
      rw [hp] at hpauses
      cases hpauses
      subst hlimit
      simp only [takePause, pause, if_pos hlate]
      rfl

/-- The pause at hand passes, or it is overdue. -/
theorem takePause_cases {next : Pause} {rest : List Pause} (hp : p.pauses = next :: rest)
    (hring : p.sink.feed.ring.Sound) :
    Ends (takePause limit next rest) p (fun _ q => Paused limit p q)
      (fun halt q => ∃ time, halt = .failed (.stopTimeout time) ∧ Overdue limit p time q) := by
  by_cases hnext : next.InTime limit
  · have htake := takePause_of_inTime hnext rest p
    simp only [Ends, htake]
    cases hmoves : moveAll next.moves { p with pauses := rest } with
    | ok _ q => exact .inTime hp hnext hmoves
    | error halt q =>
        exact ((moveAll_ends (p := { p with pauses := rest }) next.moves hring).error hmoves).elim
  · have hlate : ∃ time, limit = some time ∧ time.nanoseconds ≤ next.elapsed.nanoseconds := by
      by_contra hnone
      refine hnext fun time hlimit => Nat.lt_of_not_ge fun hle => hnone ⟨time, hlimit, hle⟩
    obtain ⟨time, hlimit, hle⟩ := hlate
    have hover := Overdue.late hp hlimit hle
    exact .of_error (takePause_of_overdue hp hover) ⟨time, rfl, hover⟩

/-! ## From turn to turn -/

variable {answers : Bool → SlotRing → Prop} {gaveUp : Halt → TransmitSink E → Prop}

section Turns

variable (hw : Watches asked look answers gaveUp)
include hw

theorem Turns.moved (h : Turns asked look limit p count q) (hp : p.sink.feed.ring.Sound) :
    TransmitSink.Moved p.sink q.sink := by
  induction h with
  | none => exact .refl p.sink
  | @turn _ q r s t _ hno hlook hpause ih =>
      have hr := ((hw.asked q).ok hno).1.toMoved
      have hs := ((hw.looked r).ok hlook).toMoved
      have hmoved := (ih.trans hr).trans hs
      cases hpause with
      | @inTime next rest _ _ _ hmoves =>
          exact hmoved.trans ((moveAll_ends (p := { s with pauses := rest }) next.moves
            (hmoved.drained.sound hp)).ok hmoves)

end Turns

/-- Every wait begins with a turn. -/
theorem waitUntil_eq_turn (asked : Call E Bool) (look : Call E Unit) (limit : Option Duration)
    (p : Progress E) : ∃ rest, waitUntil asked look limit p = turn asked look rest p := by
  cases hp : p.pauses with
  | nil =>
      refine ⟨throw .waiting, ?_⟩
      rw [waitUntil, hp, waitThrough_nil]
  | cons next rest =>
      refine ⟨do takePause limit next rest; waitThrough asked look limit rest, ?_⟩
      rw [waitUntil, hp, waitThrough_cons]

theorem waitUntil_of_yes (hyes : asked p = .ok true q) :
    waitUntil asked look limit p = .ok () q := by
  obtain ⟨rest, hturn⟩ := waitUntil_eq_turn asked look limit p
  rw [hturn, turn, bind_of_ok hyes]
  rfl

theorem waitUntil_of_gaveUp {halt : Halt} (hno : asked p = .ok false q)
    (hlook : look q = .error halt r) : waitUntil asked look limit p = .error halt r := by
  obtain ⟨rest, hturn⟩ := waitUntil_eq_turn asked look limit p
  rw [hturn, turn, bind_of_ok hno]
  exact bind_of_error hlook

section Pauses

variable (hasked : KeepsPauses asked) (hlooked : KeepsPauses look)
include hasked hlooked

/-- A turn that comes to nothing leads to where the wait might as well have begun. -/
theorem waitUntil_of_turn (hno : asked p = .ok false q) (hlook : look q = .ok () r)
    (hpause : Paused limit r s) :
    waitUntil asked look limit p = waitUntil asked look limit s := by
  have hpauses : r.pauses = p.pauses := (hlooked _ _ _ hlook).trans (hasked _ _ _ hno)
  obtain ⟨next, rest, hp⟩ : ∃ next rest, p.pauses = next :: rest := by
    cases hpause with
    | inTime hr _ _ => exact ⟨_, _, hpauses.symm.trans hr⟩
  obtain ⟨htake, hs⟩ := takePause_of_paused (hpauses.trans hp) hpause
  simp only [waitUntil, hp, hs]
  rw [waitThrough_cons, turn, bind_of_ok hno]
  simp only [Bool.false_eq_true, if_false]
  rw [bind_of_ok hlook, bind_of_ok htake]

theorem Turns.waitUntil_eq (h : Turns asked look limit p count q) :
    waitUntil asked look limit p = waitUntil asked look limit q := by
  induction h with
  | none => rfl
  | turn _ hno hlook hpause ih =>
      exact ih.trans (waitUntil_of_turn hasked hlooked hno hlook hpause)

theorem waitUntil_of_overdue {time : Duration} (hno : asked p = .ok false q)
    (hlook : look q = .ok () r) (hlate : Overdue limit r time s) :
    waitUntil asked look limit p = .error (.failed (.stopTimeout time)) s := by
  have hpauses : r.pauses = p.pauses := (hlooked _ _ _ hlook).trans (hasked _ _ _ hno)
  obtain ⟨next, rest, hp⟩ : ∃ next rest, p.pauses = next :: rest := by
    cases hlate with
    | late hr _ _ => exact ⟨_, _, hpauses.symm.trans hr⟩
  have htake := takePause_of_overdue (hpauses.trans hp) hlate
  simp only [waitUntil, hp]
  rw [waitThrough_cons, turn, bind_of_ok hno]
  simp only [Bool.false_eq_true, if_false]
  rw [bind_of_ok hlook, bind_of_error htake]

/-- How a wait ends: with a yes, with a look that gives up, overdue, or without any more pauses. -/
theorem waitUntil_turns (hw : Watches asked look answers gaveUp) (hp : p.sink.feed.ring.Sound) :
    Ends (waitUntil asked look limit) p
      (fun _ t => ∃ count q, Turns asked look limit p count q ∧ asked q = .ok true t)
      (fun halt t => halt = .waiting ∨ ∃ count q r, Turns asked look limit p count q ∧
        asked q = .ok false r ∧ (look r = .error halt t ∨ ∃ s time, look r = .ok () s ∧
          halt = .failed (.stopTimeout time) ∧ Overdue limit s time t)) := by
  refine waitThrough_rule
    (fun pauses q => q.pauses = pauses ∧ ∃ count, Turns asked look limit p count q)
    (fun pauses s => s.pauses = pauses ∧ ∃ count q r, Turns asked look limit p count q ∧
      asked q = .ok false r ∧ look r = .ok () s)
    ?_ (fun _ _ => .inl rfl) ?_ ⟨rfl, 0, .none⟩
  · rintro pauses q ⟨hpauses, count, hturns⟩
    cases hask : asked q with
    | error halt r => exact ((hw.asked q).error hask).elim
    | ok b r =>
        refine .of_ok hask ⟨?_, ?_⟩
        · rintro rfl
          exact ⟨count, q, hturns, hask⟩
        · rintro rfl
          cases hlook : look r with
          | ok _ s =>
              have hsame := (hlooked _ _ _ hlook).trans (hasked _ _ _ hask)
              exact .of_ok hlook ⟨hsame.trans hpauses, count, q, r, hturns, hask, hlook⟩
          | error halt t => exact .of_error hlook (.inr ⟨count, q, r, hturns, hask, .inl hlook⟩)
  · rintro next rest s ⟨hpauses, count, q, r, hturns, hno, hlook⟩
    have hmoved := ((hturns.moved hw hp).trans ((hw.asked q).ok hno).1.toMoved).trans
      ((hw.looked r).ok hlook).toMoved
    refine (takePause_cases hpauses (hmoved.drained.sound hp)).imp ?_ ?_
    · intro _ t hpause
      exact ⟨(takePause_of_paused hpauses hpause).2, count + 1, .turn hturns hno hlook hpause⟩
    · rintro halt t ⟨time, hhalt, hlate⟩
      exact .inr ⟨count, q, r, hturns, hno, .inr ⟨s, time, hlook, hhalt, hlate⟩⟩

end Pauses

end Call

end IqTransmit
