import IqTransmit.Engine.Output

/-!
What a device has recorded. It records what it is given in order, in however many portions and after
however many interruptions. A device that takes some bytes at each write records all for which it
has room, and fails just if these are not all; one with room for any number never fails.
-/

namespace IqTransmit

/-- The number of bytes that a write took. -/
def Written.count : Written → Nat
  | took count => count
  | interrupted | failed _ => 0

namespace Device

variable {d e f : Device} {offered taken more : List Int8} {stalled : String}

/-- A device has recorded the bytes `taken`, and its settings are as they were. -/
structure Recorded (d e : Device) (taken : List Int8) : Prop where
  bytes_eq : e.bytes = d.bytes ++ taken
  recorded_eq : e.recorded = d.recorded + taken.length
  room_eq : e.room = d.room
  portion_eq : e.portion = d.portion
  flushProblem_eq : e.flushProblem = d.flushProblem

theorem Recorded.refl (d : Device) : Recorded d d [] :=
  ⟨(List.append_nil _).symm, rfl, rfl, rfl, rfl⟩

theorem Recorded.trans (hde : Recorded d e taken) (hef : Recorded e f more) :
    Recorded d f (taken ++ more) := by
  refine ⟨?_, ?_, hef.room_eq.trans hde.room_eq, hef.portion_eq.trans hde.portion_eq,
    hef.flushProblem_eq.trans hde.flushProblem_eq⟩
  · rw [hef.bytes_eq, hde.bytes_eq, List.append_assoc]
  · rw [hef.recorded_eq, hde.recorded_eq, List.length_append, Nat.add_assoc]

theorem recorded_record (d : Device) (taken : List Int8) : Recorded d (d.record taken) taken := by
  refine ⟨?_, rfl, rfl, rfl, rfl⟩
  simp [bytes, record]

theorem accepted_prefix (d : Device) (offered : List Int8) : d.accepted offered <+: offered := by
  simp only [accepted]
  cases d.portion d.writes with
  | none =>
      cases d.room with
      | none => exact List.prefix_rfl
      | some room => exact List.take_prefix _ _
  | some most =>
      cases d.room with
      | none => exact List.take_prefix _ _
      | some room => exact (List.take_prefix _ _).trans (List.take_prefix _ _)

/-- One write records the bytes that it took, which are the first of those it was offered. -/
theorem write_recorded (d : Device) (offered : List Int8) :
    ∃ taken rest, offered = taken ++ rest ∧ taken.length = (d.write offered).1.count ∧
      Recorded d (d.write offered).2 taken := by
  obtain ⟨rest, hrest⟩ := d.accepted_prefix offered
  simp only [write]
  split
  · exact ⟨[], offered, rfl, rfl, (List.append_nil _).symm, rfl, rfl, rfl, rfl⟩
  · split
    · cases d.problem with
      | some problem => exact ⟨[], offered, rfl, rfl, .refl d⟩
      | none => exact ⟨[], offered, rfl, rfl, .refl d⟩
    · split
      · exact ⟨[], offered, rfl, rfl, .refl d⟩
      · exact ⟨d.accepted offered, rest, hrest.symm, rfl, recorded_record d _⟩

theorem writeAll_cons (stalled : String) (d : Device) (b : Int8) (rest : List Int8) :
    d.writeAll stalled (b :: rest) =
      match d.write (b :: rest) with
      | (.failed problem, e) => (.error problem, e)
      | (.interrupted, e) => e.writeAll stalled (b :: rest)
      | (.took 0, e) => (.error stalled, e)
      | (.took (count + 1), e) => e.writeAll stalled (rest.drop count) := by
  rw [writeAll]
  split <;> simp_all only

/-- Writing all bytes records them up to an error, and all of them if there is none. -/
theorem writeAll_recorded (stalled : String) (d : Device) (offered : List Int8) :
    ∃ taken rest, offered = taken ++ rest ∧ Recorded d (d.writeAll stalled offered).2 taken ∧
      ((d.writeAll stalled offered).1 = .ok () → rest = []) := by
  induction d, offered using writeAll.induct with
  | case1 d =>
      rw [writeAll]
      exact ⟨[], [], rfl, .refl d, fun _ => rfl⟩
  | case2 d b rest problem e hwrite =>
      obtain ⟨taken, left, hsplit, _, hrecorded⟩ := d.write_recorded (b :: rest)
      rw [writeAll_cons]
      rw [hwrite] at hrecorded ⊢
      exact ⟨taken, left, hsplit, hrecorded, nofun⟩
  | case3 d b rest next hwrite ih =>
      obtain ⟨taken, left, hsplit, hcount, hrecorded⟩ := d.write_recorded (b :: rest)
      obtain ⟨more, after, hmore, hlast, hall⟩ := ih
      rw [writeAll_cons]
      rw [hwrite] at hcount hrecorded ⊢
      obtain rfl : taken = [] := List.length_eq_zero_iff.mp hcount
      exact ⟨more, after, hmore, hrecorded.trans hlast, hall⟩
  | case4 d b rest e hwrite =>
      obtain ⟨taken, left, hsplit, _, hrecorded⟩ := d.write_recorded (b :: rest)
      rw [writeAll_cons]
      rw [hwrite] at hrecorded ⊢
      exact ⟨taken, left, hsplit, hrecorded, nofun⟩
  | case5 d b rest count next hwrite ih =>
      obtain ⟨taken, left, hsplit, hcount, hrecorded⟩ := d.write_recorded (b :: rest)
      obtain ⟨more, after, hmore, hlast, hall⟩ := ih
      rw [writeAll_cons]
      rw [hwrite] at hcount hrecorded ⊢
      -- the next write is offered what this one left
      have hlen : taken.length = count + 1 := hcount
      have hleft : rest.drop count = left := by
        have hdrop := congrArg (List.drop (count + 1)) hsplit
        rwa [List.drop_succ_cons, List.drop_left' hlen] at hdrop
      refine ⟨taken ++ more, after, ?_, hrecorded.trans hlast, hall⟩
      rw [hsplit, ← hleft, hmore, List.append_assoc]

/-! ## Devices that fail at a limit -/

/-- A device that takes some bytes at each write, unless it is full. -/
def Steady (d : Device) : Prop := ∀ writes, d.portion writes ≠ some 0

/-- The bytes of those offered for which a device has room. -/
def fitting (d : Device) (offered : List Int8) : List Int8 :=
  match d.room with
  | none => offered
  | some room => offered.take (room - d.recorded)

theorem Recorded.steady (hde : Recorded d e taken) (hd : d.Steady) : e.Steady := by
  rw [Steady, hde.portion_eq]
  exact hd

theorem fitting_nil (d : Device) : d.fitting [] = [] := by
  simp only [fitting]
  split <;> simp

theorem fitting_of_isFull (hfull : d.isFull = true) (offered : List Int8) :
    d.fitting offered = [] := by
  simp only [isFull] at hfull
  simp only [fitting]
  cases hroom : d.room with
  | none =>
      rw [hroom] at hfull
      cases hfull
  | some room =>
      rw [hroom] at hfull
      have hle : room ≤ d.recorded := by simpa using hfull
      simp [Nat.sub_eq_zero_of_le hle]

/-- A device has room for bytes that it took, and behind them for what it has room for then. -/
theorem Recorded.fitting_append (hde : Recorded d e taken) (htaken : d.fitting taken = taken)
    (offered : List Int8) : d.fitting (taken ++ offered) = taken ++ e.fitting offered := by
  simp only [fitting, hde.room_eq] at htaken ⊢
  cases hroom : d.room with
  | none => rfl
  | some room =>
      rw [hroom] at htaken
      have hle : taken.length ≤ room - d.recorded := by
        have hlen := congrArg List.length htaken
        rw [List.length_take] at hlen
        omega
      have hleft : room - d.recorded - taken.length = room - e.recorded := by
        rw [hde.recorded_eq, Nat.sub_add_eq]
      simp only
      rw [List.take_append, List.take_of_length_le hle, hleft]

theorem fitting_accepted (d : Device) (offered : List Int8) :
    d.fitting (d.accepted offered) = d.accepted offered := by
  simp only [fitting, accepted]
  cases d.room with
  | none => rfl
  | some room => simp only [List.take_take, Nat.min_self]

/-- A device that is not full takes some of the bytes it is offered. -/
theorem Steady.accepted_ne_nil (hd : d.Steady) (hfull : d.isFull = false) (hne : offered ≠ []) :
    d.accepted offered ≠ [] := by
  have hportion : (match d.portion d.writes with
      | none => offered
      | some most => offered.take most) ≠ [] := by
    cases hmost : d.portion d.writes with
    | none => exact hne
    | some most =>
        have hpos : most ≠ 0 := by
          rintro rfl
          exact hd _ hmost
        simp [hpos, hne]
  simp only [isFull] at hfull
  simp only [accepted]
  cases hroom : d.room with
  | none => exact hportion
  | some room =>
      rw [hroom] at hfull
      have hlt : d.recorded < room := by simpa using hfull
      have hspace : room - d.recorded ≠ 0 := by omega
      simp only [ne_eq, List.take_eq_nil_iff, not_or]
      exact ⟨hspace, hportion⟩

/-- The three things that a write of a steady device can be: an interruption, the refusal of a full
device, or some of the bytes recorded. -/
theorem Steady.write_cases (hd : d.Steady) (hne : offered ≠ []) :
    (∃ e, d.write offered = (.interrupted, e) ∧ Recorded d e []) ∨
    (d.isFull = true ∧
      (d.write offered = (.took 0, d) ∨ ∃ problem, d.write offered = (.failed problem, d))) ∨
    ∃ taken left, offered = taken ++ left ∧ taken ≠ [] ∧ d.fitting taken = taken ∧
      d.write offered = (.took taken.length, d.record taken) := by
  simp only [write]
  by_cases hpending : 0 < d.pending
  · rw [if_pos hpending]
    exact .inl ⟨_, rfl, (List.append_nil _).symm, rfl, rfl, rfl, rfl⟩
  · rw [if_neg hpending]
    right
    by_cases hfull : d.isFull = true
    · rw [if_pos hfull]
      cases d.problem with
      | none => exact .inl ⟨hfull, .inl rfl⟩
      | some problem => exact .inl ⟨hfull, .inr ⟨problem, rfl⟩⟩
    · rw [if_neg hfull]
      obtain ⟨left, hleft⟩ := d.accepted_prefix offered
      have htaken := hd.accepted_ne_nil (by simpa using hfull) hne
      rw [if_neg (by simpa using htaken)]
      exact .inr ⟨d.accepted offered, left, hleft.symm, htaken, d.fitting_accepted offered, rfl⟩

/-- Writing all bytes records those for which there is room, and fails if these are not all. -/
theorem Steady.writeAll (hd : d.Steady) (stalled : String) (offered : List Int8) :
    Recorded d (d.writeAll stalled offered).2 (d.fitting offered) ∧
      ((d.writeAll stalled offered).1 = .ok () ↔ d.fitting offered = offered) := by
  induction d, offered using writeAll.induct with
  | case1 d =>
      rw [Device.writeAll, fitting_nil]
      exact ⟨.refl d, by simp⟩
  | case2 d b rest problem e hwrite =>
      rw [writeAll_cons]
      rcases hd.write_cases (List.cons_ne_nil b rest) with
        ⟨_, hw, _⟩ | ⟨hfull, hw | ⟨_, hw⟩⟩ | ⟨_, _, _, _, _, hw⟩
      · cases hwrite.symm.trans hw
      · cases hwrite.symm.trans hw
      · cases hwrite.symm.trans hw
        rw [hwrite, fitting_of_isFull hfull]
        exact ⟨.refl d, by simp⟩
      · cases hwrite.symm.trans hw
  | case3 d b rest next hwrite ih =>
      rw [writeAll_cons]
      rcases hd.write_cases (List.cons_ne_nil b rest) with
        ⟨_, hw, hrecorded⟩ | ⟨_, hw | ⟨_, hw⟩⟩ | ⟨_, _, _, _, _, hw⟩
      · cases hwrite.symm.trans hw
        rw [hwrite]
        have hfitting : d.fitting (b :: rest) = next.fitting (b :: rest) :=
          hrecorded.fitting_append (fitting_nil d) (b :: rest)
        obtain ⟨hlast, hok⟩ := ih (hrecorded.steady hd)
        rw [hfitting]
        exact ⟨hrecorded.trans hlast, hok⟩
      · cases hwrite.symm.trans hw
      · cases hwrite.symm.trans hw
      · cases hwrite.symm.trans hw
  | case4 d b rest e hwrite =>
      rw [writeAll_cons]
      rcases hd.write_cases (List.cons_ne_nil b rest) with
        ⟨_, hw, _⟩ | ⟨hfull, hw | ⟨_, hw⟩⟩ | ⟨taken, _, _, hne, _, hw⟩
      · cases hwrite.symm.trans hw
      · cases hwrite.symm.trans hw
        rw [hwrite, fitting_of_isFull hfull]
        exact ⟨.refl d, by simp⟩
      · cases hwrite.symm.trans hw
      · have hcount := hwrite.symm.trans hw
        simp only [Prod.mk.injEq, Written.took.injEq] at hcount
        exact absurd (List.length_eq_zero_iff.mp hcount.1.symm) hne
  | case5 d b rest count next hwrite ih =>
      rw [writeAll_cons]
      rcases hd.write_cases (List.cons_ne_nil b rest) with
        ⟨_, hw, _⟩ | ⟨_, hw | ⟨_, hw⟩⟩ | ⟨taken, left, hsplit, _, htaken, hw⟩
      · cases hwrite.symm.trans hw
      · cases hwrite.symm.trans hw
      · cases hwrite.symm.trans hw
      · have hcount := hwrite.symm.trans hw
        simp only [Prod.mk.injEq, Written.took.injEq] at hcount
        obtain ⟨hlen, rfl⟩ := hcount
        rw [hwrite]
        -- the next write is offered what this one left
        have hleft : rest.drop count = left := by
          have hdrop := congrArg (List.drop (count + 1)) hsplit
          rwa [List.drop_succ_cons, List.drop_left' hlen.symm] at hdrop
        have hrecorded := recorded_record d taken
        have hfitting : d.fitting (b :: rest) = taken ++ (d.record taken).fitting left := by
          rw [hsplit]
          exact hrecorded.fitting_append htaken left
        obtain ⟨hlast, hok⟩ := ih (hrecorded.steady hd)
        rw [hfitting]
        subst hleft
        refine ⟨hrecorded.trans hlast, hok.trans ?_⟩
        rw [hsplit, List.append_cancel_left_eq]

/-! ## Devices that never fail -/

/-- A device with room for any number of bytes, that takes some at each write and can be flushed. -/
structure Reliable (d : Device) : Prop where
  room_eq : d.room = none
  portion_ne : ∀ writes, d.portion writes ≠ some 0
  flushProblem_eq : d.flushProblem = none

theorem Recorded.reliable (hde : Recorded d e taken) (hd : d.Reliable) : e.Reliable :=
  ⟨hde.room_eq.trans hd.room_eq, hde.portion_eq ▸ hd.portion_ne,
    hde.flushProblem_eq.trans hd.flushProblem_eq⟩

theorem Reliable.writeAll (hd : d.Reliable) (stalled : String) (offered : List Int8) :
    (d.writeAll stalled offered).1 = .ok () := by
  apply (Steady.writeAll hd.portion_ne stalled offered).2.mpr
  rw [fitting, hd.room_eq]

end Device

end IqTransmit
