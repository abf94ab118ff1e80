import IqTransmit.Proofs.Input

/-!
The position of a reader in its input. Successive calls, each with a buffer of its own, take the
input from front to back. A call puts what stands at its position into the front of its buffer and
leaves the rest of the buffer alone, however many reads it takes. It moves the position by what it
has read, and so does a call that fails.
-/

namespace IqTransmit.Reader

open ReadResult (given)

variable {origin r s t : Reader} {buffer after : List UInt8} {result : Except String Nat}
  {results others : List ReadResult} {problem other : Option String} {room : Nat}

/-- Successive calls, each with a buffer of its own. -/
inductive Calls (origin : Reader) : Reader → Prop where
  | start : Calls origin origin
  | call {r s : Reader} {buffer after : List UInt8} {result : Except String Nat} :
      Calls origin r → r.fillBuffer buffer = (result, after, s) → Calls origin s

/-- The number of bytes that have been taken from the input of `origin`. -/
def position (origin r : Reader) : Nat := origin.rest.length - r.rest.length

/-- What a call does that makes the reads `results`. -/
structure Filled (origin r s : Reader) (buffer after : List UInt8) (result : Except String Nat)
    (results : List ReadResult) : Prop where
  reads : Reads r buffer.length results s
  /-- The bytes that were read stand in the front of the buffer, and no others have changed. -/
  after_eq : after =
    (origin.rest.drop (position origin r)).take (given results).length ++
      buffer.drop (given results).length
  fits : (given results).length ≤ buffer.length
  position_eq : position origin s = position origin r + (given results).length
  rest_eq : s.rest = origin.rest.drop (position origin s)
  ok : ∀ count, result = .ok count →
    count = (given results).length ∧ (count < buffer.length → .took [] ∈ results)
  /-- A call that fails makes no read after the one that failed. -/
  error_iff : ∀ error, result = .error error ↔
    ∃ before, results = before ++ [.failed error] ∧ ∀ read ∈ before, read.ends = false
  /-- A read that fails is met if there is room up to it and no read before it ends the call. -/
  failed : ∀ before error t, (∀ read ∈ before, read.ends = false) →
    Reads r buffer.length (before ++ [.failed error]) t →
    result = .error error ∧ results = before ++ [.failed error] ∧ s = t
  /-- A read that is interrupted moves on in the script and changes nothing else. -/
  interrupted : ∀ before later, results = before ++ .interrupted :: later →
    ∃ t, Reads r buffer.length before t ∧
      Reads { t with script := t.script.tail, reads := t.reads + 1 }
        (buffer.length - (given before).length) later s
  empty : buffer = [] → results = [] ∧ result = .ok 0 ∧ s = r

/-! ## Reads -/

theorem eq_of_read_interrupted (h : r.read room = (.interrupted, s)) :
    s = { r with script := r.script.tail, reads := r.reads + 1 } := by
  rw [read] at h
  split at h
  · cases h
  · rename_i step script hscript
    cases step with
    | atMost count => cases h
    | interrupted =>
        rw [hscript]
        cases h
        rfl
    | failed problem => cases h

theorem Reads.split {before later : List ReadResult} (h : Reads r room (before ++ later) s) :
    ∃ t, Reads r room before t ∧ Reads t (room - (given before).length) later s := by
  induction before generalizing r room with
  | nil => exact ⟨r, .none, h⟩
  | cons read before ih =>
      cases h with
      | read hpos hread htail =>
          obtain ⟨t, hbefore, hlater⟩ := ih htail
          refine ⟨t, .read hpos hread hbefore, ?_⟩
          rwa [ReadResult.given_cons, List.length_append, ← Nat.sub_sub]

/-- A reader makes its closed reads in one way only. -/
theorem Reads.eq_of_closed (h : Reads r room results s) (hclosed : Closed room results problem)
    (hother : Reads r room others t) (hothers : Closed room others other) :
    results = others ∧ s = t := by
  induction h generalizing others with
  | none =>
      cases hclosed
      cases hother with
      | none => exact ⟨rfl, rfl⟩
      | read hpos _ _ => exact absurd hpos (Nat.lt_irrefl 0)
  | read hpos hread htail ih =>
      cases hother with
      | none =>
          cases hothers
          exact absurd hpos (Nat.lt_irrefl 0)
      | read _ hother hrest =>
          cases hread.symm.trans hother
          cases hclosed with
          | last hends =>
              cases hothers with
              | last _ =>
                  cases htail
                  cases hrest
                  exact ⟨rfl, rfl⟩
              | more hgoes _ => cases hends.symm.trans hgoes
          | more hgoes hclosed =>
              cases hothers with
              | last hends => cases hends.symm.trans hgoes
              | more _ hothers =>
                  obtain ⟨rfl, rfl⟩ := ih hclosed hrest hothers
                  exact ⟨rfl, rfl⟩

/-- A call makes reads until they are closed, and puts what they give into its buffer. -/
theorem fillBuffer_reads (h : r.fillBuffer buffer = (result, after, s)) :
    ∃ results problem, Reads r buffer.length results s ∧ Closed buffer.length results problem ∧
      result = problem.elim (.ok (given results).length) .error ∧
      after = given results ++ buffer.drop (given results).length := by
  obtain ⟨results, hreads, hclosed, hgiven⟩ := r.fill_reads buffer.length
  rw [fillBuffer] at h
  cases hfill : r.fill buffer.length with
  | mk bytes rest =>
      obtain ⟨problem, last⟩ := rest
      rw [hfill] at h hreads hclosed hgiven
      cases hgiven
      refine ⟨results, problem, ?_, hclosed, ?_⟩
      · cases h
        exact hreads
      · cases problem <;> cases h <;> exact ⟨rfl, rfl⟩

/-- Closed reads are those of a call. -/
theorem Reads.fillBuffer_eq (buffer : List UInt8) (h : Reads r buffer.length results s)
    (hclosed : Closed buffer.length results problem) :
    r.fillBuffer buffer = (problem.elim (.ok (given results).length) .error,
      given results ++ buffer.drop (given results).length, s) := by
  rw [fillBuffer, h.fill_eq hclosed]
  cases problem <;> rfl

/-- A call over whose reads one fails answers with the error of that. -/
theorem Reads.fillBuffer_failed {before : List ReadResult} {error : String}
    (h : Reads r buffer.length (before ++ [.failed error]) t)
    (hbefore : ∀ read ∈ before, read.ends = false)
    (hcall : r.fillBuffer buffer = (result, after, s)) : result = .error error :=
  congrArg Prod.fst (hcall.symm.trans (h.fillBuffer_eq _ (closed_of_failed hbefore _)))

/-! ## Positions -/

/-- What is still to come is an end of the input. -/
theorem Calls.rest_suffix (h : Calls origin r) : r.rest <:+ origin.rest := by
  induction h with
  | start => exact List.suffix_refl _
  | call _ hcall ih =>
      obtain ⟨_, _, hreads, _⟩ := fillBuffer_reads hcall
      exact List.IsSuffix.trans ⟨_, hreads.took.rest_eq.symm⟩ ih

theorem Calls.rest_eq_drop (h : Calls origin r) :
    r.rest = origin.rest.drop (position origin r) := List.suffix_iff_eq_drop.mp h.rest_suffix

theorem Took.position_eq {bytes : List UInt8} (h : Took r s bytes) (hr : r.rest <:+ origin.rest) :
    position origin s = position origin r + bytes.length := by
  have hrest := congrArg List.length h.rest_eq
  have horigin := hr.length_le
  rw [List.length_append] at hrest
  rw [position, position]
  omega

/-- Every call goes on where those before it have left the input. It neither skips a byte nor takes
one twice, whatever its reads do. -/
theorem fillBuffer_takes_next_bytes (hcalls : Calls origin r)
    (hcall : r.fillBuffer buffer = (result, after, s)) :
    ∃ results, Filled origin r s buffer after result results := by
  obtain ⟨results, problem, hreads, hclosed, rfl, rfl⟩ := fillBuffer_reads hcall
  have htook := hreads.took
  refine ⟨results, ?_⟩
  constructor
  case reads => exact hreads
  case after_eq => rw [← hcalls.rest_eq_drop, htook.rest_eq, List.take_left]
  case fits => exact hreads.length_le
  case position_eq => exact htook.position_eq hcalls.rest_suffix
  case rest_eq => exact (hcalls.call hcall).rest_eq_drop
  case ok =>
    intro count hok
    cases problem with
    | some error => cases hok
    | none =>
        cases hok
        exact ⟨rfl, fun hlt => hclosed.full_or_mem.resolve_left (Nat.not_le_of_lt hlt)⟩
  case error_iff =>
    intro error
    constructor
    · intro herror
      cases problem with
      | none => cases herror
      | some problem =>
          cases herror
          exact hclosed.eq_append
    · rintro ⟨before, rfl, hbefore⟩
      exact hreads.fillBuffer_failed hbefore hcall
  case failed =>
    intro before error t hbefore hothers
    exact ⟨hothers.fillBuffer_failed hbefore hcall,
      hreads.eq_of_closed hclosed hothers (closed_of_failed hbefore _)⟩
  case interrupted =>
    rintro before later rfl
    obtain ⟨t, hbefore, hlater⟩ := hreads.split
    cases hlater with
    | read _ hread hlater =>
        rw [eq_of_read_interrupted hread] at hlater
        exact ⟨t, hbefore, hlater⟩
  case empty =>
    rintro rfl
    cases hreads with
    | none =>
      cases hclosed
      exact ⟨rfl, rfl, rfl⟩
    | read hpos _ _ => exact absurd hpos (Nat.lt_irrefl 0)

/-- A buffer is filled over short and interrupted reads, and the next call fails behind a byte. -/
theorem fillBuffer_takes_byte_and_fails :
    ∃ origin r s results, origin.rest = [1, 2, 3, 4, 5] ∧
      origin.script = [.atMost 2, .interrupted, .atMost 2, .atMost 1, .failed "lost"] ∧
      Calls origin r ∧ r.fillBuffer [0, 0, 0] = (.error "lost", [4, 0, 0], s) ∧
      Filled origin r s [0, 0, 0] [4, 0, 0] (.error "lost") results := by
  have hfirst : Reads
      ⟨[1, 2, 3, 4, 5], [.atMost 2, .interrupted, .atMost 2, .atMost 1, .failed "lost"], 0⟩ 3
      [.took [1, 2], .interrupted, .took [3]] ⟨[4, 5], [.atMost 1, .failed "lost"], 3⟩ :=
    .read (by decide) rfl (.read (by decide) rfl (.read (by decide) rfl .none))
  have hfull : Closed 3 [.took [1, 2], .interrupted, .took [3]] none :=
    .more rfl (.more rfl (.more rfl .full))
  have hsecond : Reads ⟨[4, 5], [.atMost 1, .failed "lost"], 3⟩ 3
      [.took [4], .failed "lost"] ⟨[5], [], 5⟩ :=
    .read (by decide) rfl (.read (by decide) rfl .none)
  have hlost : Closed 3 [.took [4], .failed "lost"] (some "lost") := .more rfl (.last rfl)
  have hok : fillBuffer _ [0, 0, 0] = (.ok 3, [1, 2, 3], _) :=
    hfirst.fillBuffer_eq [0, 0, 0] hfull
  have herror : fillBuffer _ [0, 0, 0] = (.error "lost", [4, 0, 0], _) :=
    hsecond.fillBuffer_eq [0, 0, 0] hlost
  obtain ⟨results, hfilled⟩ := fillBuffer_takes_next_bytes (.call .start hok) herror
  exact ⟨_, _, _, results, rfl, rfl, .call .start hok, herror, hfilled⟩

end IqTransmit.Reader
