import IqTransmit.Input
import IqTransmit.Proofs.Groups

/-!
Reading an input block by block. However the bytes come, in however many reads, every block but the
last is full, and the blocks are the input from its start up to its end or to a read that fails.
Decoding the blocks one by one is decoding them all at once, since no sample is cut in two.
-/

namespace IqTransmit

namespace ReadResult

/-- The bytes that a read gives. -/
def bytes : ReadResult → List UInt8
  | took bytes => bytes
  | interrupted | failed _ => []

/-- Whether no further read follows: this one gave no bytes although there was room, or failed. -/
def ends : ReadResult → Bool
  | took [] | failed _ => true
  | took (_ :: _) | interrupted => false

def problem : ReadResult → Option String
  | failed problem => some problem
  | took _ | interrupted => none

/-- The bytes that reads give together. -/
def given (results : List ReadResult) : List UInt8 := results.flatMap bytes

theorem given_cons (result : ReadResult) (results : List ReadResult) :
    given (result :: results) = result.bytes ++ given results := List.flatMap_cons

end ReadResult

theorem SampleFormat.decode_nil (format : SampleFormat) : format.decode [] = [] := by
  cases format <;> rfl

theorem SampleFormat.bytesPerSample_pos (format : SampleFormat) : 0 < format.bytesPerSample := by
  cases format <;> decide

theorem SampleFormat.decode_length (format : SampleFormat) (bytes : List UInt8) :
    (format.decode bytes).length = bytes.length / format.bytesPerSample := by
  rw [decode, List.length_map, groups_length format.bytesPerSample_pos]

/-- Whole samples are decoded whatever follows them. -/
theorem SampleFormat.decode_append (format : SampleFormat) {bytes : List UInt8}
    (h : format.bytesPerSample ∣ bytes.length) (more : List UInt8) :
    format.decode (bytes ++ more) = format.decode bytes ++ format.decode more := by
  rw [decode, groups_append format.bytesPerSample_pos h, List.map_append]
  rfl

namespace Reader

variable {r s t : Reader} {bytes more : List UInt8} {room : Nat}

/-- A reader that gives no bytes only at the end of the input. -/
def Faithful (r : Reader) : Prop := Step.atMost 0 ∉ r.script

/-- Reads have taken `bytes` off the front of an input. -/
structure Took (r s : Reader) (bytes : List UInt8) : Prop where
  rest_eq : r.rest = bytes ++ s.rest
  faithful : r.Faithful → s.Faithful

theorem Took.trans (hrs : Took r s bytes) (hst : Took s t more) : Took r t (bytes ++ more) := by
  refine ⟨?_, hst.faithful ∘ hrs.faithful⟩
  rw [hrs.rest_eq, hst.rest_eq, List.append_assoc]

/-- One read takes what it gives off the front. A faithful one gives nothing only at the end. -/
theorem read_took (r : Reader) (room : Nat) :
    Took r (r.read room).2 (r.read room).1.bytes ∧ (r.read room).1.bytes.length ≤ room ∧
      (r.Faithful → 0 < room → (r.read room).1 = .took [] → (r.read room).2.rest = []) := by
  have hend {count : Nat} (hpos : 0 < count) (hnil : r.rest.take count = []) :
      r.rest.drop count = [] := by
    rcases List.take_eq_nil_iff.mp hnil with hzero | hrest
    · omega
    · rw [hrest, List.drop_nil]
  simp only [read]
  cases hscript : r.script with
  | nil =>
      refine ⟨⟨(List.take_append_drop _ _).symm, id⟩, List.length_take_le _ _, ?_⟩
      intro _ hpos hgave
      exact hend hpos (ReadResult.took.inj hgave)
  | cons step script =>
      have hfaithful : r.Faithful → Step.atMost 0 ∉ script := by
        intro h hmem
        exact h (hscript ▸ List.mem_cons_of_mem _ hmem)
      cases step with
      | atMost count =>
          refine ⟨⟨(List.take_append_drop _ _).symm, hfaithful⟩, ?_, ?_⟩
          · exact Nat.le_trans (List.length_take_le _ _) (Nat.min_le_right _ _)
          · intro h hpos hgave
            have hcount : count ≠ 0 := by
              rintro rfl
              exact h (hscript ▸ List.mem_cons_self)
            exact hend (by omega) (ReadResult.took.inj hgave)
      | interrupted => exact ⟨⟨rfl, hfaithful⟩, Nat.zero_le _, fun _ _ => nofun⟩
      | failed problem => exact ⟨⟨rfl, hfaithful⟩, Nat.zero_le _, fun _ _ => nofun⟩

/-- A read uses up one entry of the script, and fails only as the script says. -/
theorem read_script (r : Reader) (room : Nat) :
    (r.read room).2.script = r.script.tail ∧
      ∀ problem, (r.read room).1 = .failed problem → .failed problem ∈ r.script := by
  simp only [read]
  cases hscript : r.script with
  | nil => exact ⟨hscript, nofun⟩
  | cons step script =>
      cases step with
      | atMost count => exact ⟨rfl, nofun⟩
      | interrupted => exact ⟨rfl, nofun⟩
      | failed problem =>
          refine ⟨rfl, fun other hfailed => ?_⟩
          cases hfailed
          exact List.mem_cons_self

/-- Reads one after the other, each made with the room that those before it have left. -/
inductive Reads : Reader → Nat → List ReadResult → Reader → Prop where
  | none {r : Reader} {room : Nat} : Reads r room [] r
  | read {r s t : Reader} {room : Nat} {result : ReadResult} {results : List ReadResult} :
      0 < room → r.read room = (result, s) →
      Reads s (room - result.bytes.length) results t → Reads r room (result :: results) t

/-- Reads that no other follows, with their error if there is one: they have filled the room, or
the last of them ends. -/
inductive Closed : Nat → List ReadResult → Option String → Prop where
  | full : Closed 0 [] none
  | last {room : Nat} {result : ReadResult} : result.ends = true →
      Closed room [result] result.problem
  | more {room : Nat} {result : ReadResult} {results : List ReadResult} {problem : Option String} :
      result.ends = false → Closed (room - result.bytes.length) results problem →
      Closed room (result :: results) problem

variable {results : List ReadResult} {problem : Option String}

theorem Reads.took (h : Reads r room results s) : Took r s (ReadResult.given results) := by
  induction h with
  | none => exact ⟨rfl, id⟩
  | read _ hread _ ih =>
      obtain ⟨htook, _⟩ := read_took _ _
      rw [hread] at htook
      rw [ReadResult.given_cons]
      exact htook.trans ih

theorem Reads.length_le (h : Reads r room results s) :
    (ReadResult.given results).length ≤ room := by
  induction h with
  | none => exact Nat.zero_le _
  | @read r _ _ room _ _ _ hread _ ih =>
      obtain ⟨_, hle, _⟩ := r.read_took room
      rw [hread] at hle
      rw [ReadResult.given_cons, List.length_append]
      simp only at hle
      omega

/-- A faithful reader that has given nothing is at the end of its input. -/
theorem Reads.rest_eq_nil (h : Reads r room results s) (hr : r.Faithful)
    (hmem : .took [] ∈ results) : s.rest = [] := by
  induction h with
  | none => cases hmem
  | @read r s t room _ _ hpos hread htail ih =>
      obtain ⟨htook, _, hend⟩ := r.read_took room
      rw [hread] at htook hend
      rcases List.mem_cons.mp hmem with hhead | hlater
      · have hafter := htail.took.rest_eq
        rw [show s.rest = [] from hend hr hpos hhead.symm] at hafter
        exact (List.append_eq_nil_iff.mp hafter.symm).2
      · exact ih (htook.faithful hr) hlater

theorem Reads.script_suffix (h : Reads r room results s) : s.script <:+ r.script := by
  induction h with
  | none => exact List.suffix_refl _
  | @read r _ _ room _ _ _ hread _ ih =>
      have hscript := (r.read_script room).1
      rw [hread] at hscript
      exact ih.trans (hscript ▸ List.tail_suffix _)

theorem Reads.failed_mem {error : String} (h : Reads r room results s)
    (hmem : .failed error ∈ results) : .failed error ∈ r.script := by
  induction h with
  | none => cases hmem
  | @read r _ _ room _ _ _ hread _ ih =>
      obtain ⟨hscript, hfailed⟩ := r.read_script room
      rw [hread] at hscript hfailed
      rcases List.mem_cons.mp hmem with hhead | hlater
      · exact hfailed error hhead.symm
      · exact List.mem_of_mem_tail (hscript ▸ ih hlater)

/-- Closed reads without an error have filled the room or met a read of no bytes. -/
theorem Closed.full_or_mem (h : Closed room results none) :
    room ≤ (ReadResult.given results).length ∨ .took [] ∈ results := by
  generalize hnone : none = problem at h
  induction h with
  | full => exact .inl (Nat.zero_le _)
  | @last _ result hends =>
      cases result with
      | took bytes =>
          cases bytes with
          | nil => exact .inr List.mem_cons_self
          | cons b bytes => cases hends
      | interrupted => cases hends
      | failed problem => cases hnone
  | more _ _ ih =>
      rw [ReadResult.given_cons, List.length_append]
      refine (ih hnone).imp (fun hle => ?_) (List.mem_cons_of_mem _)
      omega

/-- Closed reads with an error end with the read that failed; none of those before it ended. -/
theorem Closed.eq_append {error : String} (h : Closed room results (some error)) :
    ∃ before, results = before ++ [.failed error] ∧ ∀ result ∈ before, result.ends = false := by
  generalize hsome : some error = problem at h
  induction h with
  | full => cases hsome
  | @last _ result hends =>
      cases result with
      | took bytes => cases hsome
      | interrupted => cases hends
      | failed problem =>
          cases hsome
          exact ⟨[], rfl, nofun⟩
  | @more _ result _ _ hgoes _ ih =>
      obtain ⟨before, rfl, hbefore⟩ := ih hsome
      exact ⟨result :: before, rfl, List.forall_mem_cons.mpr ⟨hgoes, hbefore⟩⟩

/-- Reads that go on up to one that fails are closed. -/
theorem closed_of_failed {before : List ReadResult} {error : String}
    (hbefore : ∀ result ∈ before, result.ends = false) (room : Nat) :
    Closed room (before ++ [.failed error]) (some error) := by
  induction before generalizing room with
  | nil => exact .last rfl
  | cons result before ih =>
      obtain ⟨hgoes, hbefore⟩ := List.forall_mem_cons.mp hbefore
      exact .more hgoes (ih hbefore _)

theorem fill_of_pos (hroom : room ≠ 0) (r : Reader) :
    r.fill room =
      match r.read room with
      | (.took [], s) => ([], none, s)
      | (.took (b :: bytes), s) =>
          let (more, problem, t) := s.fill (room - (b :: bytes).length)
          (b :: bytes ++ more, problem, t)
      | (.interrupted, s) => s.fill room
      | (.failed problem, s) => ([], some problem, s) := by
  rw [fill, if_neg hroom]
  split <;> simp_all only

/-- Filling a buffer makes reads until they are closed. -/
theorem fill_reads (r : Reader) (room : Nat) :
    ∃ results, Reads r room results (r.fill room).2.2 ∧
      Closed room results (r.fill room).2.1 ∧ (r.fill room).1 = ReadResult.given results := by
  induction r, room using fill.induct with
  | case1 r =>
      rw [fill, if_pos rfl]
      exact ⟨[], .none, .full, rfl⟩
  | case2 r room hroom next hread =>
      rw [fill_of_pos hroom, hread]
      exact ⟨[.took []], .read (Nat.pos_of_ne_zero hroom) hread .none, .last rfl, rfl⟩
  | case3 r room hroom b bytes next hread more problem last hfill ih =>
      obtain ⟨results, hreads, hclosed, hgiven⟩ := ih
      rw [hfill] at hreads hclosed hgiven
      rw [fill_of_pos hroom, hread]
      simp only [hfill]
      exact ⟨.took (b :: bytes) :: results, .read (Nat.pos_of_ne_zero hroom) hread hreads,
        .more rfl hclosed, congrArg (b :: bytes ++ ·) hgiven⟩
  | case4 r room hroom next hread ih =>
      obtain ⟨results, hreads, hclosed, hgiven⟩ := ih
      rw [fill_of_pos hroom, hread]
      exact ⟨.interrupted :: results, .read (Nat.pos_of_ne_zero hroom) hread hreads,
        .more rfl hclosed, hgiven⟩
  | case5 r room hroom problem next hread =>
      rw [fill_of_pos hroom, hread]
      exact ⟨[.failed problem], .read (Nat.pos_of_ne_zero hroom) hread .none, .last rfl, rfl⟩

/-- Closed reads are those that filling a buffer makes. -/
theorem Reads.fill_eq (h : Reads r room results s) (hclosed : Closed room results problem) :
    r.fill room = (ReadResult.given results, problem, s) := by
  induction h with
  | none =>
      cases hclosed
      rw [fill, if_pos rfl]
      rfl
  | @read r s t room result results hpos hread htail ih =>
      rw [fill_of_pos (Nat.ne_of_gt hpos), hread]
      cases hclosed with
      | last hends =>
          cases htail
          cases result with
          | took bytes =>
              cases bytes with
              | nil => rfl
              | cons b bytes => cases hends
          | interrupted => cases hends
          | failed error => rfl
      | more hgoes hclosed =>
          cases result with
          | took bytes =>
              cases bytes with
              | nil => cases hgoes
              | cons b bytes =>
                  simp only [ReadResult.bytes] at ih hclosed
                  simp only [ih hclosed]
                  rfl
          | interrupted => exact ih hclosed
          | failed error => cases hgoes

/-! ## Blocks -/

theorem readBlock_eq (r : Reader) (size : Nat) :
    r.readBlock size =
      ((r.fill size).2.1.elim (.ok (r.fill size).1) .error, (r.fill size).2.2) := by
  rw [readBlock]
  rcases r.fill size with ⟨bytes, _ | problem, s⟩ <;> rfl

/-- A block is what filling a buffer of its size leaves in the front of that, whatever the buffer
holds before. -/
theorem readBlock_eq_take_fillBuffer (r : Reader) (buffer : List UInt8) :
    r.readBlock buffer.length =
      ((r.fillBuffer buffer).1.map fun count => (r.fillBuffer buffer).2.1.take count,
        (r.fillBuffer buffer).2.2) := by
  rw [readBlock, fillBuffer]
  rcases r.fill buffer.length with ⟨bytes, _ | problem, s⟩
  · exact congrArg (·, s) (congrArg Except.ok List.take_left.symm)
  · rfl

/-- A block is what closed reads give, unless the last of them failed. -/
theorem readBlock_reads {size : Nat} {result : Except String (List UInt8)}
    (h : r.readBlock size = (result, s)) :
    ∃ results problem, Reads r size results s ∧ Closed size results problem ∧
      result = problem.elim (.ok (ReadResult.given results)) .error := by
  obtain ⟨results, hreads, hclosed, hgiven⟩ := r.fill_reads size
  rw [readBlock_eq] at h
  cases h
  exact ⟨results, _, hreads, hclosed, by rw [hgiven]⟩

/-- Reads that give a block are closed without an error. -/
theorem readBlock_ok {size : Nat} (h : r.readBlock size = (.ok bytes, s)) :
    ∃ results, Reads r size results s ∧ Closed size results none ∧
      bytes = ReadResult.given results := by
  obtain ⟨results, problem, hreads, hclosed, hresult⟩ := readBlock_reads h
  cases problem with
  | none => exact ⟨results, hreads, hclosed, Except.ok.inj hresult⟩
  | some problem => cases hresult

/-- A read that fails is the last of those for its block. -/
theorem readBlock_error {size : Nat} {error : String} (h : r.readBlock size = (.error error, s)) :
    ∃ before, Reads r size (before ++ [.failed error]) s ∧
      ∀ result ∈ before, result.ends = false := by
  obtain ⟨results, problem, hreads, hclosed, hresult⟩ := readBlock_reads h
  cases problem with
  | none => cases hresult
  | some problem =>
      cases hresult
      obtain ⟨before, rfl, hbefore⟩ := hclosed.eq_append
      exact ⟨before, hreads, hbefore⟩

/-- A block of no bytes is the end of the input, and a block that is not full is followed by it. -/
theorem readBlock_took {size : Nat} (h : r.readBlock size = (.ok bytes, s)) :
    Took r s bytes ∧ bytes.length ≤ size ∧
      (r.Faithful → bytes.length = size ∨ s.rest = []) := by
  obtain ⟨results, hreads, hclosed, rfl⟩ := readBlock_ok h
  refine ⟨hreads.took, hreads.length_le, fun hr => ?_⟩
  exact hclosed.full_or_mem.imp (Nat.le_antisymm hreads.length_le) (hreads.rest_eq_nil hr)

/-- The blocks of `size` bytes that a reader gives, up to the end of the input or to an error. -/
inductive Yields (size : Nat) : Reader → List (List UInt8) → Option String → Prop where
  | done {r s : Reader} : r.readBlock size = (.ok [], s) → Yields size r [] none
  | failed {r s : Reader} {problem : String} :
      r.readBlock size = (.error problem, s) → Yields size r [] (some problem)
  | block {r s : Reader} {b : UInt8} {bytes : List UInt8} {blocks : List (List UInt8)}
      {failure : Option String} : r.readBlock size = (.ok (b :: bytes), s) →
      Yields size s blocks failure → Yields size r ((b :: bytes) :: blocks) failure

/-- Reading comes to an end. -/
theorem exists_yields (size : Nat) (r : Reader) :
    ∃ blocks failure, Yields size r blocks failure := by
  induction hn : r.rest.length using Nat.strongRecOn generalizing r with
  | ind n ih =>
      cases hread : r.readBlock size with
      | mk result s =>
          cases result with
          | error problem => exact ⟨[], some problem, .failed hread⟩
          | ok bytes =>
              cases bytes with
              | nil => exact ⟨[], none, .done hread⟩
              | cons b bytes =>
                  obtain ⟨htook, _, _⟩ := readBlock_took hread
                  have hlen := congrArg List.length htook.rest_eq
                  simp only [List.length_append, List.length_cons] at hlen
                  obtain ⟨blocks, failure, hrest⟩ := ih _ (by omega) s rfl
                  exact ⟨_, failure, .block hread hrest⟩

variable {size : Nat} {blocks : List (List UInt8)} {failure : Option String}

/-- The blocks are the start of the input, and all of it if no read failed. -/
theorem Yields.flatten_eq (h : Yields size r blocks failure) (hr : r.Faithful) (hsize : 0 < size) :
    blocks.flatten <+: r.rest ∧ (failure = none → blocks.flatten = r.rest) := by
  induction h with
  | @done r s hread =>
      obtain ⟨htook, _, hend⟩ := readBlock_took hread
      have hrest : s.rest = [] := (hend hr).resolve_left (by simpa using Nat.ne_of_lt hsize)
      rw [htook.rest_eq, hrest]
      exact ⟨List.nil_prefix, fun _ => rfl⟩
  | failed _ => exact ⟨List.nil_prefix, nofun⟩
  | block hread _ ih =>
      obtain ⟨htook, _, _⟩ := readBlock_took hread
      obtain ⟨hfirst, hall⟩ := ih (htook.faithful hr)
      rw [htook.rest_eq, List.flatten_cons]
      exact ⟨List.prefix_append_right_inj _ |>.mpr hfirst, fun hnone => by rw [hall hnone]⟩

theorem Yields.length_le (h : Yields size r blocks failure) :
    ∀ block ∈ blocks, block.length ≤ size := by
  induction h with
  | done _ => exact nofun
  | failed _ => exact nofun
  | block hread _ ih =>
      intro block hmem
      rcases List.mem_cons.mp hmem with rfl | hmem
      · exact (readBlock_took hread).2.1
      · exact ih block hmem

/-- No block is empty. -/
theorem Yields.length_le_flatten (h : Yields size r blocks failure) :
    blocks.length ≤ blocks.flatten.length := by
  induction h with
  | done _ => exact Nat.le_refl 0
  | failed _ => exact Nat.le_refl 0
  | block _ _ ih =>
      simp only [List.length_cons, List.flatten_cons, List.length_append]
      omega

/-- Reading stops over an error only where the script has it. -/
theorem Yields.failed_mem {problem : String} (h : Yields size r blocks (some problem)) :
    .failed problem ∈ r.script := by
  generalize hsome : some problem = failure at h
  induction h with
  | done _ => cases hsome
  | failed hread =>
      cases hsome
      obtain ⟨before, hreads, _⟩ := readBlock_error hread
      exact hreads.failed_mem (List.mem_append_right _ List.mem_cons_self)
  | block hread _ ih =>
      obtain ⟨_, hreads, _⟩ := readBlock_ok hread
      exact hreads.script_suffix.mem (ih hsome)

/-- A reader at the end of its input gives no block. -/
theorem Yields.of_rest_nil (h : Yields size r blocks failure) (hrest : r.rest = []) :
    blocks = [] := by
  cases h with
  | done _ => rfl
  | failed _ => rfl
  | block hread _ =>
      have htook := (readBlock_took hread).1.rest_eq
      rw [hrest] at htook
      cases htook

/-- Decoding block by block is decoding all of the blocks at once. -/
theorem Yields.decode_flatten {format : SampleFormat} (h : Yields size r blocks failure)
    (hr : r.Faithful) (hsize : format.bytesPerSample ∣ size) :
    (blocks.map format.decode).flatten = format.decode blocks.flatten := by
  induction h with
  | done _ => exact format.decode_nil.symm
  | failed _ => exact format.decode_nil.symm
  | @block r s b bytes blocks failure hread hrest ih =>
      obtain ⟨htook, _, hend⟩ := readBlock_took hread
      rw [List.map_cons, List.flatten_cons, ih (htook.faithful hr), List.flatten_cons]
      rcases hend hr with hfull | hnone
      · rw [format.decode_append (hfull ▸ hsize)]
      · rw [hrest.of_rest_nil hnone, List.flatten_nil, format.decode_nil, List.append_nil,
          List.append_nil]

end Reader

end IqTransmit
