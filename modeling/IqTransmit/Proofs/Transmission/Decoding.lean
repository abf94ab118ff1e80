import IqTransmit.Proofs.Transmission.Supply

/-!
Decoding an input block by block. Whatever the reads of an input give, and however the thread that
reads it and the thread that takes its blocks take turns, the blocks decode to what all of the input
decodes to. Blocks are read until they are full, so none but the last can end inside a sample; over
a read that fails, the blocks before it are full ones from the start of the input.
-/

namespace IqTransmit

/-- The bytes of a number, from the least to the greatest. -/
def Binary32.bytes (x : Binary32) : List UInt8 :=
  [1, 0x100, 0x10000, 0x1000000].map fun unit => UInt8.ofNat (x.bits.toNat / unit)

/-- A sample as the input format that keeps its bit patterns has it. -/
def Sample.bytes (s : Sample) : List UInt8 := s.re.bytes ++ s.im.bytes

namespace SampleFormat

/-- An incomplete sample at the end is dropped. -/
theorem decode_take_whole (format : SampleFormat) (bytes : List UInt8) :
    format.decode (bytes.take (bytes.length / format.bytesPerSample * format.bytesPerSample)) =
      format.decode bytes := by
  have hpos := format.bytesPerSample_pos
  have hnil : groups format.bytesPerSample ([] : List UInt8) = [] := groups_of_lt hpos
  have hgroups := groups_flatten_append hpos
    (fun g (hg : g ∈ groups format.bytesPerSample bytes) => length_of_mem_groups hpos hg) []
  rw [List.append_nil, flatten_groups hpos, hnil, List.append_nil] at hgroups
  rw [decode, hgroups, decode]

theorem bytes_float (a b c d : UInt8) : (float [a, b, c, d]).bytes = [a, b, c, d] := by
  have ha := a.toNat_lt
  have hb := b.toNat_lt
  have hc := c.toNat_lt
  have hd := d.toNat_lt
  have hbits : (float [a, b, c, d]).bits.toNat =
      a.toNat + 256 * (b.toNat + 256 * (c.toNat + 256 * d.toNat)) := by
    simp only [float, littleEndian, UInt32.toNat_ofNat']
    omega
  simp only [Binary32.bytes, hbits, List.map_cons, List.map_nil, List.cons.injEq, and_true,
    ← UInt8.toNat_inj, UInt8.toNat_ofNat']
  omega

/-- The numbers of a sample have the bit patterns of its bytes. -/
theorem bytes_decodeOne {bytes : List UInt8} (h : bytes.length = 8) :
    (cf32.decodeOne bytes).bytes = bytes := by
  match bytes, h with
  | [a, b, c, d, e, f, g, h], _ =>
      change (float [a, b, c, d]).bytes ++ (float [e, f, g, h]).bytes = _
      rw [bytes_float, bytes_float]
      rfl

/-- Decoding keeps all bit patterns up to an incomplete sample at the end. -/
theorem flatMap_bytes_decode (bytes : List UInt8) :
    (cf32.decode bytes).flatMap Sample.bytes = bytes.take (bytes.length / 8 * 8) := by
  have hgroup (group : List UInt8) (hmem : group ∈ groups 8 bytes) :
      (cf32.decodeOne group).bytes = group :=
    bytes_decodeOne (length_of_mem_groups (by decide) hmem)
  rw [← flatten_groups (by decide), decode, List.flatMap_map, List.flatMap_def]
  exact congrArg List.flatten ((List.map_congr_left hgroup).trans (List.map_id _))

end SampleFormat

namespace Reader

open ReadResult (given)

variable {size : Nat} {r s t : Reader} {blocks : List (List UInt8)} {failure : Option String}
  {calls : List (List ReadResult)}

/-- The reads of successive blocks of `size` bytes, block by block. -/
inductive Called (size : Nat) : Reader → List (List ReadResult) → Reader → Prop where
  | none {r : Reader} : Called size r [] r
  | block {r s t : Reader} {results : List ReadResult} {calls : List (List ReadResult)} :
      Reads r size results s → Closed size results none → Called size s calls t →
      Called size r (results :: calls) t

/-- If no read gives nothing then all blocks are full. -/
theorem Called.length_eq (h : Called size r calls s) (hnone : .took [] ∉ calls.flatten) :
    ∀ block ∈ calls.map given, block.length = size := by
  induction h with
  | none => exact nofun
  | block hreads hclosed _ ih =>
      rw [List.flatten_cons, List.mem_append, not_or] at hnone
      rw [List.map_cons, List.forall_mem_cons]
      refine ⟨Nat.le_antisymm hreads.length_le ?_, ih hnone.2⟩
      exact hclosed.full_or_mem.resolve_right hnone.1

theorem Called.took (h : Called size r calls s) : Took r s (calls.map given).flatten := by
  induction h with
  | none => exact ⟨rfl, id⟩
  | block hreads _ _ ih =>
      rw [List.map_cons, List.flatten_cons]
      exact hreads.took.trans ih

/-- If a read of a faithful reader gives nothing then the blocks are all of the input. -/
theorem Called.flatten_eq (h : Called size r calls s) (hr : r.Faithful)
    (hmem : .took [] ∈ calls.flatten) : (calls.map given).flatten = r.rest := by
  induction h with
  | none => cases hmem
  | @block r s t results calls hreads _ hcalled ih =>
      rw [List.map_cons, List.flatten_cons, hreads.took.rest_eq]
      rw [List.flatten_cons] at hmem
      congr 1
      rcases List.mem_append.mp hmem with hhere | hlater
      · have hrest := hreads.rest_eq_nil hr hhere
        have hlast := hcalled.took.rest_eq
        rw [hrest] at hlast ⊢
        exact (List.append_eq_nil_iff.mp hlast.symm).1
      · exact ih (hreads.took.faithful hr) hlater

/-- A read that fails comes after those of the blocks before it. -/
theorem Yields.called {problem : String} (h : Yields size r blocks (some problem)) :
    ∃ calls s before t, Called size r calls s ∧ blocks = calls.map given ∧
      Reads s size (before ++ [.failed problem]) t ∧ ∀ read ∈ before, read.ends = false := by
  generalize hsome : some problem = failure at h
  induction h with
  | done _ => cases hsome
  | @failed r s _ hread =>
      cases hsome
      obtain ⟨before, hreads, hbefore⟩ := readBlock_error hread
      exact ⟨[], r, before, s, .none, rfl, hreads, hbefore⟩
  | block hread _ ih =>
      obtain ⟨results, hreads, hclosed, hbytes⟩ := readBlock_ok hread
      obtain ⟨calls, s, before, t, hcalled, rfl, hlast⟩ := ih hsome
      refine ⟨results :: calls, s, before, t, .block hreads hclosed hcalled, ?_, hlast⟩
      rw [hbytes, List.map_cons]

/-- The blocks are as much of the input as they have room for. -/
theorem Yields.flatten_eq_take (h : Yields size r blocks failure) (hr : r.Faithful) :
    blocks.flatten = r.rest.take (blocks.length * size) := by
  induction h with
  | done _ => rw [List.length_nil, Nat.zero_mul]; rfl
  | failed _ => rw [List.length_nil, Nat.zero_mul]; rfl
  | @block r s b bytes blocks _ hread hrest ih =>
      obtain ⟨htook, hle, hend⟩ := readBlock_took hread
      rw [htook.rest_eq, List.flatten_cons, ih (htook.faithful hr), List.length_cons, Nat.succ_mul]
      rcases hend hr with hfull | hnil
      · rw [← hfull, Nat.add_comm, List.take_length_add_append]
      · rw [hnil, List.take_nil, List.append_nil, List.take_of_length_le (by omega)]

end Reader

namespace Transmission.Supply

open ReadResult (given)

variable {s t : Supply} {reader : Reader} {format : SampleFormat} {failure : Option String}
  {blocks taken : List (List Sample)} {blockSize count lag : Nat} {result : Except String Unit}

/-- What a thread does and the takings from its channel, in any order, with their number and the
blocks that were taken. -/
inductive Runs (s : Supply) : Nat → List (List Sample) → Supply → Prop where
  | start : Runs s 0 [] s
  | step {count : Nat} {taken : List (List Sample)} {t : Supply} :
      Runs s count taken t → t.step ≠ t → Runs s (count + 1) taken t.step
  | take {count : Nat} {taken channel : List (List Sample)} {block : List Sample} {t : Supply} :
      Runs s count taken t → t.channel = block :: channel →
      Runs s (count + 1) (taken ++ [block]) { t with channel }

/-- The blocks that are taken and those still to come are the same all along, and all that is done
comes nearer to their end. -/
theorem Gives.runs (h : Gives failure s blocks lag) (hruns : Runs s count taken t) :
    ∃ rest less, blocks = taken ++ rest ∧ count + less ≤ lag ∧ Gives failure t rest less := by
  induction hruns with
  | start => exact ⟨blocks, lag, rfl, by omega, h⟩
  | step _ hne ih =>
      obtain ⟨rest, less, hblocks, hle, hgives⟩ := ih
      obtain ⟨fewer, hlt, hgives⟩ := hgives.step_lt hne
      exact ⟨rest, fewer, hblocks, by omega, hgives⟩
  | take _ hchannel ih =>
      obtain ⟨rest, less, rfl, hle, hgives⟩ := ih
      obtain ⟨rest, fewer, rfl, hlt, hgives⟩ := hgives.take hchannel
      exact ⟨rest, fewer, List.append_cons _ _ _, by omega, hgives⟩

/-- A thread that has ended gives what is left in its channel. -/
theorem Gives.of_ended (h : Gives failure s blocks lag) (hended : s.ended = some result) :
    blocks = s.channel ∧ result = ending failure := by
  cases h with
  | reading hnone _ => cases hnone.symm.trans hended
  | ended hsome => exact ⟨rfl, Option.some.inj (hended.symm.trans hsome)⟩

/-- A run goes on to the end of the thread and of its channel. -/
theorem Runs.exists_end (hruns : Runs s count taken t) (h : Gives failure t blocks lag) :
    ∃ count taken t, Runs s count taken t ∧ t.channel = [] ∧ t.ended = some (ending failure) := by
  induction lag using Nat.strongRecOn generalizing count taken t blocks with
  | ind lag ih =>
      by_cases hstep : t.step = t
      · cases hchannel : t.channel with
        | nil =>
            have hends := (ready_of_step_eq hstep).resolve_left (absurd hchannel)
            exact ⟨count, taken, t, hruns, hchannel, (h.eq_nil hchannel hends).2⟩
        | cons block channel =>
            obtain ⟨_, less, _, hlt, hgives⟩ := h.take hchannel
            exact ih less hlt (hruns.take hchannel) hgives
      · obtain ⟨less, hlt, hgives⟩ := h.step_lt hstep
        exact ih less hlt (hruns.step hstep) hgives

/-- What is decoded of an input in blocks of `size` bytes before a read fails. The reads are those
of `calls`, call by call, and of a last call with the one that fails. -/
structure BrokenOff (size : Nat) (reader : Reader) (format : SampleFormat) (problem : String)
    (calls : List (List ReadResult)) (decoded : List (List Sample)) : Prop where
  scripted : .failed problem ∈ reader.script
  reads : ∃ s before t, reader.Called size calls s ∧
    s.Reads size (before ++ [.failed problem]) t ∧ ∀ read ∈ before, read.ends = false
  decoded_eq : decoded = calls.map fun reads => format.decode (given reads)
  flatten_eq : decoded.flatten = format.decode (reader.rest.take (calls.length * size))
  /-- The input has so many bytes, unless its end was met before a read failed. -/
  length_le : .took [] ∉ calls.flatten → calls.length * size ≤ reader.rest.length
  whole : .took [] ∈ calls.flatten → decoded.flatten = format.decode reader.rest

theorem brokenOff_of_yields {size : Nat} {blocks : List (List UInt8)} {problem : String}
    (h : reader.Yields size blocks (some problem)) (hfaithful : reader.Faithful)
    (hsize : format.bytesPerSample ∣ size) :
    ∃ calls, BrokenOff size reader format problem calls (blocks.map format.decode) := by
  have hdecode := h.decode_flatten hfaithful hsize
  have htake := h.flatten_eq_take hfaithful
  have hle := congrArg List.length htake
  obtain ⟨calls, s, before, t, hcalled, rfl, hlast⟩ := h.called
  rw [List.length_map] at htake hle
  refine ⟨calls, ?_⟩
  constructor
  case scripted => exact h.failed_mem
  case reads => exact ⟨s, before, t, hcalled, hlast⟩
  case decoded_eq => rw [List.map_map]; rfl
  case flatten_eq => rw [hdecode, htake]
  case length_le =>
    intro hnone
    have hfull := length_flatten_of_length (hcalled.length_eq hnone)
    rw [List.length_map] at hfull
    rw [hfull] at hle
    exact hle ▸ List.length_take_le' _ _
  case whole =>
    intro hmem
    rw [hdecode, hcalled.flatten_eq hfaithful hmem]

/-- What comes of an input that is read in blocks of `blockSize` samples, where `taken` are the
blocks that were taken from the channel. -/
structure Decodes (reader : Reader) (format : SampleFormat) (blockSize count : Nat)
    (taken : List (List Sample)) (t : Supply) : Prop where
  /-- Reading ends, since only so much can be done. -/
  count_le : count ≤ 3 * reader.rest.length + 1
  goes_on : t.ended = none → t.step ≠ t ∨ t.channel ≠ []
  flatten_eq : t.ended = some (.ok ()) →
    (taken ++ t.channel).flatten = format.decode reader.rest
  broken_off : ∀ problem, t.ended = some (.error problem) → ∃ calls,
    BrokenOff (blockSize * format.bytesPerSample) reader format problem calls (taken ++ t.channel)
  length_eq :
    (format.decode reader.rest).length = reader.rest.length / format.bytesPerSample
  drops_end :
    format.decode (reader.rest.take
      (reader.rest.length / format.bytesPerSample * format.bytesPerSample)) =
        format.decode reader.rest
  bits_eq : format = .cf32 → (format.decode reader.rest).flatMap Sample.bytes =
    reader.rest.take (reader.rest.length / 8 * 8)

/-- Reading an input in blocks and decoding each of them is decoding the input. -/
theorem blocks_decode_input (hfaithful : reader.Faithful) (hsize : 0 < blockSize)
    (hruns : Runs { reader, format, blockSize } count taken t) :
    Decodes reader format blockSize count taken t := by
  have hbytes : 0 < blockSize * format.bytesPerSample :=
    Nat.mul_pos hsize format.bytesPerSample_pos
  obtain ⟨blocks, failure, hyields⟩ :=
    reader.exists_yields (blockSize * format.bytesPerSample)
  obtain ⟨hstart, hall⟩ := hyields.flatten_eq hfaithful hbytes
  have hdecode := hyields.decode_flatten hfaithful (Nat.dvd_mul_left _ _)
  have hfresh := Gives.reading (s := { reader, format, blockSize }) rfl hyields
  obtain ⟨rest, less, hblocks, hle, hgives⟩ := hfresh.runs hruns
  have hended {result : Except String Unit} (h : t.ended = some result) :
      taken ++ t.channel = blocks.map format.decode ∧ result = ending failure := by
    obtain ⟨rfl, hresult⟩ := hgives.of_ended h
    exact ⟨hblocks.symm, hresult⟩
  constructor
  case count_le =>
    have hlen := hyields.length_le_flatten
    have hinput := hstart.length_le
    simp only [List.length_nil, Option.toList_none] at hle
    omega
  case goes_on =>
    intro hnone
    by_cases hstep : t.step = t
    · refine .inr ((ready_of_step_eq hstep).resolve_right ?_)
      rw [hnone]
      nofun
    · exact .inl hstep
  case flatten_eq =>
    intro hok
    obtain ⟨hdecoded, hresult⟩ := hended hok
    cases failure with
    | none => rw [hdecoded, hdecode, hall rfl]
    | some problem => cases hresult
  case broken_off =>
    intro problem herror
    obtain ⟨hdecoded, hresult⟩ := hended herror
    cases failure with
    | none => cases hresult
    | some problem =>
        cases hresult
        rw [hdecoded]
        exact brokenOff_of_yields hyields hfaithful (Nat.dvd_mul_left _ _)
  case length_eq => exact format.decode_length _
  case drops_end => exact format.decode_take_whole _
  case bits_eq =>
    rintro rfl
    exact SampleFormat.flatMap_bytes_decode _

/-- One sample and a byte of the next, over a short read and one that was interrupted. -/
theorem blocks_decode_sample_and_byte :
    ∃ count taken t,
      Runs { reader := ⟨[0, 64, 0, 128, 7], [.atMost 3, .interrupted], 0⟩
             format := .ci16, blockSize := 1 } count taken t ∧
      t.ended = some (.ok ()) ∧ taken.flatten = [⟨⟨0x3f000000⟩, ⟨0xbf800000⟩⟩] ∧
      Decodes ⟨[0, 64, 0, 128, 7], [.atMost 3, .interrupted], 0⟩ .ci16 1 count taken t := by
  obtain ⟨blocks, failure, hyields⟩ :=
    Reader.exists_yields 4 ⟨[0, 64, 0, 128, 7], [.atMost 3, .interrupted], 0⟩
  have hfailure : failure = none := by
    cases failure with
    | none => rfl
    | some problem => simpa using hyields.failed_mem
  obtain ⟨count, taken, t, hruns, hchannel, hended⟩ :=
    Runs.start.exists_end (.reading (s := ⟨_, .ci16, 1, none, [], none⟩) rfl hyields)
  have hdecodes := blocks_decode_input (by unfold Reader.Faithful; decide) Nat.one_pos hruns
  rw [hfailure] at hended
  have hflatten := hdecodes.flatten_eq hended
  rw [hchannel, List.append_nil] at hflatten
  exact ⟨count, taken, t, hruns, hended, hflatten.trans (by decide +kernel), hdecodes⟩

end Transmission.Supply

end IqTransmit
