import IqTransmit.Proofs.Input
import IqTransmit.Transmission

/-!
The supply of a transmission. Whatever the reader thread has done so far, the blocks in its channel,
the block that it has decoded and those that the reader still yields are, in this order, the blocks
still to come. A step of the thread comes nearer to their end, unless there is a block to take or
the thread has ended.
-/

namespace IqTransmit.Transmission

/-- The result of a reader thread whose reader fails or does not. -/
def ending : Option String → Except String Unit
  | none => .ok ()
  | some problem => .error problem

namespace Supply

variable {s : Supply} {failure : Option String} {blocks : List (List Sample)} {lag : Nat}

/-- The blocks that are still to come out of a supply until it ends, and a bound on the steps of the
thread and takings from the channel that this needs. -/
inductive Gives (failure : Option String) (s : Supply) : List (List Sample) → Nat → Prop where
  | reading {rest : List (List UInt8)} : s.ended = none →
      s.reader.Yields (s.blockSize * s.format.bytesPerSample) rest failure →
      Gives failure s (s.channel ++ (s.ready.toList ++ rest.map s.format.decode))
        (s.channel.length + 2 * s.ready.toList.length + 3 * rest.length + 1)
  | ended : s.ended = some (ending failure) → Gives failure s s.channel s.channel.length

/-- The next look at the channel needs no further step of the thread. -/
def Ready (s : Supply) : Prop := s.channel ≠ [] ∨ s.ended.isSome = true

/-- A read of the thread is one block less to come, or the end. -/
theorem Gives.readNext (h : Gives failure s blocks lag) (hends : s.ended = none)
    (hready : s.ready = none) : ∃ less < lag, Gives failure s.readNext blocks less := by
  cases h with
  | ended hended => cases hends.symm.trans hended
  | @reading rest _ hyields =>
      simp only [Supply.readNext]
      cases hyields with
      | done hread =>
          rw [hread, hready]
          simp only [Option.toList_none, List.map_nil, List.append_nil, List.length_nil]
          exact ⟨s.channel.length, by omega, .ended rfl⟩
      | failed hread =>
          rw [hread, hready]
          simp only [Option.toList_none, List.map_nil, List.append_nil, List.length_nil]
          exact ⟨s.channel.length, by omega, .ended rfl⟩
      | @block _ next b bytes rest _ hread hrest =>
          have hgives := Gives.reading
            (s := { s with reader := next, ready := some (s.format.decode (b :: bytes)) })
            hends hrest
          rw [hread, hready]
          simp only [Option.toList_none, Option.toList_some, List.nil_append, List.map_cons,
            List.cons_append, List.length_cons, List.length_nil] at hgives ⊢
          exact ⟨_, by omega, hgives⟩

/-- A decoded block goes into a channel that has room. -/
theorem Gives.send (h : Gives failure s blocks lag) (hends : s.ended = none)
    {block : List Sample} (hready : s.ready = some block) (hroom : s.channel.length < channelSize) :
    ∃ less < lag, Gives failure (s.send block) blocks less := by
  cases h with
  | ended hended => cases hends.symm.trans hended
  | @reading rest _ hyields =>
      have hgives := Gives.reading
        (s := { s with ready := none, channel := s.channel ++ [block] }) hends hyields
      rw [Supply.send, if_pos hroom, hready]
      simp only [Option.toList_none, Option.toList_some, List.nil_append, List.append_assoc,
        List.singleton_append, List.length_append, List.length_cons, List.length_nil]
        at hgives ⊢
      exact ⟨_, by omega, hgives⟩

/-- A thread that does nothing has ended, or waits at a full channel. -/
theorem ready_of_step_eq (h : s.step = s) : Ready s := by
  rw [Supply.step] at h
  split at h
  · rename_i hended
    exact .inr (by rw [hended]; rfl)
  · rename_i hends
    split at h
    · rename_i block hready
      rw [Supply.send] at h
      split at h
      · cases hready.symm.trans (congrArg Supply.ready h).symm
      · rename_i hfull
        refine .inl fun hnil => hfull ?_
        rw [hnil]
        decide
    · rename_i hready
      rw [Supply.readNext] at h
      split at h
      · cases hends.symm.trans (congrArg Supply.ended h).symm
      · cases hends.symm.trans (congrArg Supply.ended h).symm
      · cases hready.symm.trans (congrArg Supply.ready h).symm

/-- Whatever the thread does comes nearer to the end. -/
theorem Gives.step_lt (h : Gives failure s blocks lag) (hne : s.step ≠ s) :
    ∃ less < lag, Gives failure s.step blocks less := by
  rw [Supply.step] at hne ⊢
  split at hne
  · exact absurd rfl hne
  · rename_i hends
    split at hne
    · rename_i block hready
      refine h.send hends hready (Decidable.byContradiction fun hfull => hne ?_)
      rw [Supply.send, if_neg hfull]
    · rename_i hready
      exact h.readNext hends hready

theorem Gives.step (h : Gives failure s blocks lag) :
    ∃ less ≤ lag, Gives failure s.step blocks less ∧ (less < lag ∨ Ready s.step) := by
  by_cases heq : s.step = s
  · rw [heq]
    exact ⟨lag, Nat.le_refl _, h, .inr (ready_of_step_eq heq)⟩
  · obtain ⟨less, hlt, hgives⟩ := h.step_lt heq
    exact ⟨less, Nat.le_of_lt hlt, hgives, .inl hlt⟩

/-- Once the channel holds a block the thread only adds to it, and once it has ended it does nothing
more. -/
theorem Ready.step (h : Ready s) : Ready s.step := by
  simp only [Supply.step]
  cases hends : s.ended with
  | some result => exact h
  | none =>
      have hchannel : s.channel ≠ [] := h.resolve_right (by rw [hends]; nofun)
      cases s.ready with
      | some block =>
          simp only [Supply.send]
          split
          · exact .inl (List.append_ne_nil_of_right_ne_nil _ (List.cons_ne_nil _ _))
          · exact h
      | none =>
          simp only [Supply.readNext]
          split
          · exact .inl hchannel
          · exact .inl hchannel
          · exact .inl hchannel

theorem Ready.steps (h : Ready s) (count : Nat) : Ready (s.steps count) := by
  induction count generalizing s with
  | zero => exact h
  | succ count ih => exact ih h.step

/-- The thread comes nearer to the end in any number of steps but none, or the next look at the
channel will. -/
theorem Gives.steps (h : Gives failure s blocks lag) (count : Nat) :
    ∃ less ≤ lag, Gives failure (s.steps count) blocks less ∧
      (0 < count → less < lag ∨ Ready (s.steps count)) := by
  induction count generalizing s lag with
  | zero => exact ⟨lag, Nat.le_refl _, h, fun hpos => absurd hpos (Nat.lt_irrefl 0)⟩
  | succ count ih =>
      obtain ⟨next, hle, hnext, hfirst⟩ := h.step
      obtain ⟨less, hless, hgives, _⟩ := ih hnext
      refine ⟨less, Nat.le_trans hless hle, hgives, fun _ => ?_⟩
      exact hfirst.imp (Nat.lt_of_le_of_lt hless) fun hready => hready.steps count

/-- A block that is taken from the channel is the next of those to come. -/
theorem Gives.take (h : Gives failure s blocks lag) {block : List Sample}
    {channel : List (List Sample)} (hchannel : s.channel = block :: channel) :
    ∃ rest less, blocks = block :: rest ∧ less < lag ∧
      Gives failure { s with channel } rest less := by
  cases h with
  | @reading rest hends hyields =>
      refine ⟨_, _, ?_, ?_, .reading (s := { s with channel }) hends hyields⟩
      · rw [hchannel]
        rfl
      · simp only [hchannel, List.length_cons]
        omega
  | ended hended =>
      refine ⟨channel, channel.length, hchannel, ?_, .ended (s := { s with channel }) hended⟩
      rw [hchannel]
      exact Nat.lt_succ_self _

/-- At the end of the thread and of the channel no block is to come. -/
theorem Gives.eq_nil (h : Gives failure s blocks lag) (hchannel : s.channel = [])
    (hends : s.ended.isSome = true) : blocks = [] ∧ s.ended = some (ending failure) := by
  cases h with
  | reading hnone _ =>
      rw [hnone] at hends
      cases hends
  | ended hended => exact ⟨hchannel, hended⟩

end Supply

end IqTransmit.Transmission
