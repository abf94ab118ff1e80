/-! Checks whose failure stops the program. A caller that keeps its promises meets none of them. -/

namespace IqTransmit

/-- A broken promise of a caller: three stated assertions, then the silent checks on
sizes and times. -/
inductive Fault where
  | zeroCapacity
  | zeroSlotSize
  | outputSize
  | storageSize
  | lengthMismatch
  | outOfRange
  | underflow
  | timeRange
  deriving DecidableEq, Repr

namespace Fault

/-- The text of a stated assertion; the silent checks have none. -/
def message : Fault → Option String
  | zeroCapacity => some "ring capacity must be non-zero"
  | zeroSlotSize => some "slot size must be non-zero"
  | outputSize => some "output must hold two bytes per complex sample"
  | storageSize | lengthMismatch | outOfRange | underflow | timeRange => none

end Fault

/-- The first `count` elements, or a fault if there are fewer. -/
def takeExactly {α : Type} (count : Nat) (xs : List α) : Except Fault (List α) :=
  let taken := xs.take count
  if taken.length = count then .ok taken else .error .outOfRange

/-- The elements from position `start` on, or a fault if the list ends before it. -/
def dropExactly {α : Type} (start : Nat) (xs : List α) : Except Fault (List α) :=
  if (xs.take start).length = start then .ok (xs.drop start) else .error .outOfRange

/-- A difference of sizes, or a fault if it would be negative. -/
def subtractExactly (total part : Nat) : Except Fault Nat :=
  if part ≤ total then .ok (total - part) else .error .underflow

theorem takeExactly_eq_ok_iff {α : Type} {count : Nat} {xs taken : List α} :
    takeExactly count xs = .ok taken ↔ count ≤ xs.length ∧ taken = xs.take count := by
  unfold takeExactly
  by_cases h : count ≤ xs.length
  · simp [h, eq_comm]
  · have : min count xs.length ≠ count := by omega
    simp [h, this]

theorem dropExactly_eq_ok_iff {α : Type} {start : Nat} {xs rest : List α} :
    dropExactly start xs = .ok rest ↔ start ≤ xs.length ∧ rest = xs.drop start := by
  unfold dropExactly
  by_cases h : start ≤ xs.length
  · simp [h, eq_comm]
  · have : min start xs.length ≠ start := by omega
    simp [h, this]

theorem subtractExactly_eq_ok_iff {total part rest : Nat} :
    subtractExactly total part = .ok rest ↔ part ≤ total ∧ rest = total - part := by
  unfold subtractExactly
  by_cases h : part ≤ total
  · simp [h, eq_comm]
  · simp [h]

end IqTransmit
