import IqTransmit.Groups

/-! Whole groups put together again: they are the list without its incomplete end. -/

namespace IqTransmit

variable {α : Type}

/-- Cutting follows the list: a list that is too short has no group, any other has its first
elements as one, and then the groups of the rest. -/
theorem groups_induction {size : Nat} (hs : 0 < size) {motive : List α → Prop}
    (short : ∀ xs, xs.length < size → motive xs)
    (step : ∀ xs, size ≤ xs.length → motive (xs.drop size) → motive xs) (xs : List α) :
    motive xs := by
  induction hn : xs.length using Nat.strongRecOn generalizing xs with
  | ind n ih =>
      rcases Nat.lt_or_ge xs.length size with hlt | hle
      · exact short xs hlt
      · refine step xs hle (ih _ ?_ _ rfl)
        rw [List.length_drop]
        omega

theorem length_of_mem_groups {size : Nat} (hs : 0 < size) {xs g : List α}
    (hg : g ∈ groups size xs) : g.length = size := by
  induction xs using groups_induction hs with
  | short xs hlt =>
      rw [groups_of_lt hlt] at hg
      exact absurd hg List.not_mem_nil
  | step xs hle ih =>
      rw [groups_of_le hs hle] at hg
      rcases List.mem_cons.mp hg with rfl | hg
      · exact List.length_take_of_le hle
      · exact ih hg

theorem flatten_groups {size : Nat} (hs : 0 < size) (xs : List α) :
    (groups size xs).flatten = xs.take (xs.length / size * size) := by
  induction xs using groups_induction hs with
  | short xs hlt => rw [groups_of_lt hlt, Nat.div_eq_of_lt hlt, Nat.zero_mul]; rfl
  | step xs hle ih =>
      have hdiv : xs.length / size * size = size + (xs.drop size).length / size * size := by
        rw [List.length_drop, Nat.div_eq_sub_div hs hle, Nat.add_mul, Nat.one_mul, Nat.add_comm]
      rw [groups_of_le hs hle, List.flatten_cons, ih, hdiv, List.take_add]

/-- A list of whole groups is cut where they meet, whatever follows them. -/
theorem groups_flatten_append {size : Nat} (hs : 0 < size) {gs : List (List α)}
    (hgs : ∀ g ∈ gs, g.length = size) (rest : List α) :
    groups size (gs.flatten ++ rest) = gs ++ groups size rest := by
  induction gs with
  | nil => rfl
  | cons g gs ih =>
      have hg : g.length = size := hgs g List.mem_cons_self
      have htail := ih fun g hmem => hgs g (List.mem_cons_of_mem _ hmem)
      have hle : size ≤ ((g :: gs).flatten ++ rest).length := by
        simp only [List.flatten_cons, List.length_append]
        omega
      rw [groups_of_le hs hle, List.flatten_cons, List.append_assoc, List.take_left' hg,
        List.drop_left' hg, htail, List.cons_append]

theorem groups_length {size : Nat} (hs : 0 < size) (xs : List α) :
    (groups size xs).length = xs.length / size := by
  induction xs using groups_induction hs with
  | short xs hlt => rw [groups_of_lt hlt, Nat.div_eq_of_lt hlt, List.length_nil]
  | step xs hle ih =>
      rw [groups_of_le hs hle, List.length_cons, ih, List.length_drop, Nat.div_eq_sub_div hs hle]

/-- Behind whole groups the cutting begins anew. -/
theorem groups_append {size : Nat} (hs : 0 < size) {xs : List α} (h : size ∣ xs.length)
    (ys : List α) : groups size (xs ++ ys) = groups size xs ++ groups size ys := by
  have hwhole : (groups size xs).flatten = xs := by
    rw [flatten_groups hs, Nat.div_mul_cancel h, List.take_length]
  have hcut := groups_flatten_append hs
    (fun g (hg : g ∈ groups size xs) => length_of_mem_groups hs hg) ys
  rwa [hwhole] at hcut

theorem length_flatten_of_length {size : Nat} {gs : List (List α)}
    (hgs : ∀ g ∈ gs, g.length = size) : gs.flatten.length = gs.length * size := by
  induction gs with
  | nil => rw [List.flatten_nil, List.length_nil, List.length_nil, Nat.zero_mul]
  | cons g gs ih =>
      have hg : g.length = size := hgs g List.mem_cons_self
      have htail := ih fun g hmem => hgs g (List.mem_cons_of_mem _ hmem)
      rw [List.flatten_cons, List.length_append, htail, hg, List.length_cons, Nat.add_mul,
        Nat.one_mul, Nat.add_comm]

/-- Whole groups and less than one more: how they are cut, where the rest begins and how long it
is are all to be seen from the list. -/
theorem groups_of_flatten_append {size : Nat} {gs : List (List α)} {rest xs : List α}
    (hgs : ∀ g ∈ gs, g.length = size) (hrest : rest.length < size) (hxs : gs.flatten ++ rest = xs) :
    groups size xs = gs ∧ xs.drop (xs.length / size * size) = rest ∧
      xs.length % size = rest.length := by
  have hs : 0 < size := Nat.zero_lt_of_lt hrest
  have hlen : xs.length = rest.length + gs.length * size := by
    rw [← hxs, List.length_append, length_flatten_of_length hgs, Nat.add_comm]
  have hdiv : xs.length / size = gs.length := by
    rw [hlen, Nat.add_mul_div_right _ _ hs, Nat.div_eq_of_lt hrest, Nat.zero_add]
  refine ⟨?_, ?_, ?_⟩
  · rw [← hxs, groups_flatten_append hs hgs, groups_of_lt hrest, List.append_nil]
  · rw [hdiv, ← length_flatten_of_length hgs, ← hxs, List.drop_left]
  · rw [hlen, Nat.add_mul_mod_self_right, Nat.mod_eq_of_lt hrest]

end IqTransmit
