import IqTransmit.Sample

/-!
Reading an input. A reader gives as many bytes per read as it likes, may be interrupted, and may
fail; a read of no bytes means the end. Blocks are filled from as many reads as it takes, so
that only the last one can be short and no sample is cut in two.
-/

namespace IqTransmit

/-- What a reader does at one read. -/
inductive Step where
  | atMost (count : Nat)
  | interrupted
  | failed (problem : String)
  deriving DecidableEq, Repr

/-- A reader with its bytes still to come. Once its script is used up it gives all it can. -/
structure Reader where
  rest : List UInt8
  script : List Step := []
  /-- The number of script entries used. -/
  reads : Nat := 0

/-- How a read ends. -/
inductive ReadResult where
  | took (bytes : List UInt8)
  | interrupted
  | failed (problem : String)
  deriving DecidableEq, Repr

namespace Reader

/-- Takes up to `count` bytes. -/
def take (r : Reader) (count : Nat) : ReadResult × Reader :=
  (.took (r.rest.take count), { r with rest := r.rest.drop count })

/-- One read of up to `room` bytes. -/
def read (r : Reader) (room : Nat) : ReadResult × Reader :=
  match r.script with
  | [] => r.take room
  | step :: script =>
      let r := { r with script, reads := r.reads + 1 }
      match step with
      | .atMost count => r.take (min count room)
      | .interrupted => (.interrupted, r)
      | .failed problem => (.failed problem, r)

/-- Reads until `room` bytes are there, the input ends or a read fails; gives what was read in
any case. Interrupted reads are made again. -/
def fill (r : Reader) (room : Nat) : List UInt8 × Option String × Reader :=
  if room = 0 then ([], none, r)
  else
    match _h : r.read room with
    | (.took [], r) => ([], none, r)
    | (.took (b :: bytes), next) =>
        let (more, problem, last) := next.fill (room - (b :: bytes).length)
        (b :: bytes ++ more, problem, last)
    | (.interrupted, next) => next.fill room
    | (.failed problem, r) => ([], some problem, r)
termination_by (room, r.script.length)
decreasing_by
  · apply Prod.Lex.left
    simp only [List.length_cons]
    omega
  · apply Prod.Lex.right
    unfold read at _h
    split at _h
    · simp [take] at _h
    · rename_i step script hs
      cases step <;> simp only [take, Prod.mk.injEq, reduceCtorEq, false_and] at _h
      rw [← _h.2, hs]
      simp

/-- Fills a buffer from its start; what is not filled stays. Answers the number of bytes read, or
the error of a read. -/
def fillBuffer (r : Reader) (buffer : List UInt8) : Except String Nat × List UInt8 × Reader :=
  let (bytes, problem, next) := r.fill buffer.length
  let result := match problem with
    | none => .ok bytes.length
    | some problem => .error problem
  (result, bytes ++ buffer.drop bytes.length, next)

/-- Reads one block: the bytes, or the error of a read. -/
def readBlock (r : Reader) (size : Nat) : Except String (List UInt8) × Reader :=
  match r.fill size with
  | (bytes, none, r) => (.ok bytes, r)
  | (_, some problem, r) => (.error problem, r)

end Reader

end IqTransmit
