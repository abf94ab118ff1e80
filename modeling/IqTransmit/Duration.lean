import IqTransmit.Fault

/-!
Spans of time in nanoseconds, their text in the largest unit that does not exceed them, and the
clock from whose readings they are counted on.
-/

namespace IqTransmit

/-- A span of time. -/
structure Duration where
  nanoseconds : Nat
  deriving DecidableEq, Repr

namespace Duration

def ofMicroseconds (count : Nat) : Duration := ⟨count * 1000⟩

def ofMilliseconds (count : Nat) : Duration := ⟨count * 1000000⟩

/-- The seconds of the longest span. -/
def maxSeconds : Nat := 0xffffffffffffffff

/-- The span of some seconds and nanoseconds, or a fault if it is longer than any may be. -/
def ofParts (seconds nanoseconds : Nat) : Except Fault Duration :=
  if seconds + nanoseconds / 1000000000 ≤ maxSeconds then
    .ok ⟨seconds * 1000000000 + nanoseconds⟩
  else .error .timeRange

/-- The whole milliseconds of a span. -/
def milliseconds (d : Duration) : Nat := d.nanoseconds / 1000000

/-- The decimals of `rest / 10 ^ places`, with a leading point and without closing zeros. -/
def fraction (places rest : Nat) : String :=
  let digits := Nat.toDigits 10 rest
  let padded := List.replicate (places - digits.length) '0' ++ digits
  let kept := (padded.reverse.dropWhile (· == '0')).reverse
  if kept.isEmpty then "" else String.ofList ('.' :: kept)

/-- A count of nanoseconds in a unit of `size` of them, a power of ten with `places` zeros. -/
def inUnit (places size : Nat) (unit : String) (nanoseconds : Nat) : String :=
  let whole := nanoseconds / size
  let decimals := fraction places (nanoseconds % size)
  s!"{whole}{decimals}{unit}"

/-- The exact text: seconds, milliseconds, microseconds or nanoseconds with their decimals. -/
def text (d : Duration) : String :=
  let n := d.nanoseconds
  if 1000000000 ≤ n then inUnit 9 1000000000 "s" n
  else if 1000000 ≤ n then inUnit 6 1000000 "ms" n
  else if 1000 ≤ n then inUnit 3 1000 "µs" n
  else inUnit 0 1 "ns" n

end Duration

/-- A reading of the clock, which only ever counts up. -/
structure Instant where
  nanoseconds : Nat
  deriving DecidableEq, Repr

namespace Instant

/-- The seconds of the last reading. -/
def maxSeconds : Nat := 0x7fffffffffffffff

/-- The reading once a span has passed since `now`, or a fault if the clock never comes to it. -/
def after (now : Instant) (span : Duration) : Except Fault Instant :=
  let nanoseconds := now.nanoseconds + span.nanoseconds
  if nanoseconds / 1000000000 ≤ maxSeconds then .ok ⟨nanoseconds⟩ else .error .timeRange

variable {now : Instant} {span : Duration}

theorem after_eq_ok_iff {reading : Instant} :
    now.after span = .ok reading ↔
      (now.nanoseconds + span.nanoseconds) / 1000000000 ≤ maxSeconds ∧
        reading = ⟨now.nanoseconds + span.nanoseconds⟩ := by
  unfold after
  by_cases h : (now.nanoseconds + span.nanoseconds) / 1000000000 ≤ maxSeconds
  · simp [h, eq_comm]
  · simp [h]

theorem after_eq_error_iff {fault : Fault} :
    now.after span = .error fault ↔
      maxSeconds < (now.nanoseconds + span.nanoseconds) / 1000000000 ∧ fault = .timeRange := by
  unfold after
  by_cases h : (now.nanoseconds + span.nanoseconds) / 1000000000 ≤ maxSeconds
  · simp [h, Nat.not_lt_of_le h]
  · simp [h, Nat.lt_of_not_le h, eq_comm]

/-- A span has passed since `now` just if as much time has passed. -/
theorem after_le_iff {reading : Instant} (h : now.after span = .ok reading) (elapsed : Duration) :
    reading.nanoseconds ≤ now.nanoseconds + elapsed.nanoseconds ↔
      span.nanoseconds ≤ elapsed.nanoseconds := by
  obtain ⟨_, rfl⟩ := after_eq_ok_iff.mp h
  exact Nat.add_le_add_iff_left

end Instant

end IqTransmit
