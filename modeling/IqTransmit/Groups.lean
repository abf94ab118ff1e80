/-! Cutting a list into whole groups of one length, and into pieces of at most that length. -/

namespace IqTransmit

variable {α : Type}

/-- Appends the first `count` groups of `size` elements to those already cut. -/
def cutGroups (size : Nat) : Nat → List α → Array (List α) → Array (List α)
  | 0, _, done => done
  | count + 1, xs, done => cutGroups size count (xs.drop size) (done.push (xs.take size))

/-- The whole groups of `size` elements, in order; an incomplete one at the end is left out. -/
def groups (size : Nat) (xs : List α) : List (List α) :=
  (cutGroups size (xs.length / size) xs #[]).toList

/-- All elements in pieces of `size`, of which only the last may be shorter. -/
def pieces (size : Nat) (xs : List α) : List (List α) :=
  let whole := xs.length / size
  let rest := xs.drop (whole * size)
  groups size xs ++ if rest.isEmpty then [] else [rest]

theorem cutGroups_eq_append (size count : Nat) (xs : List α) (done : Array (List α)) :
    cutGroups size count xs done = done ++ cutGroups size count xs #[] := by
  induction count generalizing xs done with
  | zero => simp [cutGroups]
  | succ count ih =>
      rw [cutGroups, cutGroups, ih, ih _ (#[].push _)]
      simp

theorem groups_of_lt {size : Nat} {xs : List α} (h : xs.length < size) : groups size xs = [] := by
  simp [groups, Nat.div_eq_of_lt h, cutGroups]

theorem groups_of_le {size : Nat} {xs : List α} (hs : 0 < size) (h : size ≤ xs.length) :
    groups size xs = xs.take size :: groups size (xs.drop size) := by
  have hc : xs.length / size = (xs.drop size).length / size + 1 := by
    rw [List.length_drop, Nat.div_eq_sub_div hs h]
  rw [groups, hc, cutGroups, cutGroups_eq_append]
  simp [groups]

end IqTransmit
