import Mathlib
import MyStudy.Lib.Bytes

/-!
# Reading lines from a descriptor

`readline.c`: `my_read` takes bytes one by one out of a buffer that `read` fills. What `readline`
returns depends on the bytes that come and not on the pieces they come in.
-/
namespace Unp.Readline

def newline : UInt8 := 10

/-- What a call of `read` returns: an error, which may be `EINTR`, or bytes, where none is the end
of the file. -/
inductive Read where
  | interrupted
  | fails
  | got (bytes : Bytes)
  deriving DecidableEq

/-- What `read_ptr` and `read_cnt` tell of the buffer, and what the calls of `read` are going to
return. -/
structure Input where
  buffer : Bytes
  reads : List Read
  deriving DecidableEq

inductive Result where
  | byte (c : UInt8)
  | eof
  | error
  deriving DecidableEq

/-- `my_read`; `none` when it waits for ever. -/
def myRead : Bytes → List Read → Option (Result × Input)
  | c :: buffer, reads => some (.byte c, ⟨buffer, reads⟩)
  | [], .interrupted :: reads => myRead [] reads
  | [], .fails :: reads => some (.error, ⟨[], reads⟩)
  | [], .got [] :: reads => some (.eof, ⟨[], reads⟩)
  | [], .got (c :: buffer) :: reads => some (.byte c, ⟨buffer, reads⟩)
  | [], [] => none

/-- What a call returns, and what it has stored. -/
structure Line where
  returned : Int
  stored : Bytes
  deriving DecidableEq

/-- The loop of `readline`, for so many more rounds. -/
def loop : Nat → Int → Bytes → Input → Option (Line × Input)
  | 0, n, ptr, input => some (⟨n, ptr⟩, input)
  | rounds + 1, n, ptr, input =>
    match myRead input.buffer input.reads with
    | none => none
    | some (.byte c, input) =>
      if c = newline then some (⟨n, ptr ++ [c]⟩, input) else loop rounds (n + 1) (ptr ++ [c]) input
    | some (.eof, input) => some (⟨n - 1, ptr⟩, input)
    | some (.error, input) => some (⟨-1, ptr⟩, input)

def readline (maxlen : Nat) (input : Input) : Option (Line × Input) := loop (maxlen - 1) 1 [] input

/-! ### The bytes that come -/

/-- Bytes up to an end of the file or an error, and what comes from there on. -/
structure Stream where
  bytes : Bytes
  behind : List Read
  deriving DecidableEq

def Stream.before (bytes : Bytes) (s : Stream) : Stream := ⟨bytes ++ s.bytes, s.behind⟩

def streamOf : List Read → Stream
  | .interrupted :: reads => streamOf reads
  | .got (c :: bytes) :: reads => (streamOf reads).before (c :: bytes)
  | reads => ⟨[], reads⟩

def Input.stream (input : Input) : Stream := (streamOf input.reads).before input.buffer

/-- The bytes of a line: up to a newline, and at most so many. -/
def lineOf : Nat → Bytes → Bytes
  | 0, _ => []
  | _ + 1, [] => []
  | rounds + 1, c :: bytes => if c = newline then [c] else c :: lineOf rounds bytes

/-- What `readline` makes of a stream. It returns how many bytes it has stored, but `maxlen`, which
is one more, for a line that it cuts. -/
def readStream (maxlen : Nat) (s : Stream) : Option (Line × Stream) :=
  let line := lineOf (maxlen - 1) s.bytes
  if newline ∈ line then some (⟨line.length, line⟩, ⟨s.bytes.drop line.length, s.behind⟩)
  else if line.length = maxlen - 1 then some
    (⟨line.length + 1, line⟩, ⟨s.bytes.drop line.length, s.behind⟩)
  else
    match s.behind with
    | .got _ :: reads => some (⟨line.length, line⟩, streamOf reads)
    | .fails :: reads => some (⟨-1, line⟩, streamOf reads)
    | _ => none

/-- A byte comes, whatever piece it is in. -/
theorem myRead_cons {reads : List Read} {buffer more : Bytes} {behind : List Read} {c : UInt8}
    (ahead : (Input.mk buffer reads).stream = ⟨c :: more, behind⟩) :
    ∃ input, myRead buffer reads = some (.byte c, input) ∧ input.stream = ⟨more, behind⟩ := by
  cases buffer with
  | cons d buffer =>
    have same : d = c ∧ (Input.mk buffer reads).stream = ⟨more, behind⟩ := by
      simpa [Input.stream, Stream.before, and_assoc] using ahead
    obtain ⟨rfl, rest⟩ := same
    exact ⟨⟨buffer, reads⟩, by rw [myRead], rest⟩
  | nil =>
    induction reads with
    | nil => simp [Input.stream, Stream.before, streamOf] at ahead
    | cons first reads ih =>
      cases first with
      | interrupted =>
        rw [myRead]
        exact ih ahead
      | fails => simp [Input.stream, Stream.before, streamOf] at ahead
      | got bytes =>
        cases bytes with
        | nil => simp [Input.stream, Stream.before, streamOf] at ahead
        | cons d bytes =>
          have same : d = c ∧ (Input.mk bytes reads).stream = ⟨more, behind⟩ := by
            simpa [Input.stream, Stream.before, streamOf, and_assoc] using ahead
          obtain ⟨rfl, rest⟩ := same
          exact ⟨⟨bytes, reads⟩, by rw [myRead], rest⟩

/-- What `my_read` returns where no byte comes. -/
def atEnd : List Read → Option (Result × Input)
  | .got _ :: reads => some (.eof, ⟨[], reads⟩)
  | .fails :: reads => some (.error, ⟨[], reads⟩)
  | _ => none

/-- No byte comes any more. -/
theorem myRead_nil {reads : List Read} {buffer : Bytes} {behind : List Read}
    (ahead : (Input.mk buffer reads).stream = ⟨[], behind⟩) :
    myRead buffer reads = atEnd behind := by
  cases buffer with
  | cons d buffer => simp [Input.stream, Stream.before] at ahead
  | nil =>
    induction reads with
    | nil =>
      obtain rfl : [] = behind := by simpa [Input.stream, Stream.before, streamOf] using ahead
      rw [myRead, atEnd]
      all_goals simp
    | cons first reads ih =>
      cases first with
      | interrupted =>
        rw [myRead]
        exact ih ahead
      | fails =>
        obtain rfl : .fails :: reads = behind := by
          simpa [Input.stream, Stream.before, streamOf] using ahead
        rw [myRead, atEnd]
      | got bytes =>
        cases bytes with
        | nil =>
          obtain rfl : .got [] :: reads = behind := by
            simpa [Input.stream, Stream.before, streamOf] using ahead
          rw [myRead, atEnd]
        | cons d bytes => simp [Input.stream, Stream.before, streamOf] at ahead

/-- What the loop comes to when it begins with some bytes stored. -/
def loopStream (rounds : Nat) (n : Int) (ptr : Bytes) (s : Stream) : Option (Line × Stream) :=
  let line := lineOf rounds s.bytes
  if newline ∈ line then some (⟨n + line.length - 1, ptr ++ line⟩,
    ⟨s.bytes.drop line.length, s.behind⟩)
  else if line.length = rounds then some
    (⟨n + line.length, ptr ++ line⟩, ⟨s.bytes.drop line.length, s.behind⟩)
  else
    match s.behind with
    | .got _ :: reads => some (⟨n + line.length - 1, ptr ++ line⟩, streamOf reads)
    | .fails :: reads => some (⟨-1, ptr ++ line⟩, streamOf reads)
    | _ => none

theorem loop_stream (rounds : Nat) (n : Int) (ptr : Bytes) (input : Input) :
    (loop rounds n ptr input).map (fun (line, input) => (line, input.stream)) =
      loopStream rounds n ptr input.stream := by
  induction rounds generalizing n ptr input with
  | zero => simp [loop, loopStream, lineOf]
  | succ rounds ih =>
    obtain ⟨buffer, reads⟩ := input
    cases ahead : (Input.mk buffer reads).stream with
    | mk bytes behind =>
      cases bytes with
      | nil =>
        have read := myRead_nil ahead
        rw [loop, read]
        rcases behind with _ | ⟨_ | _ | _, behind⟩ <;>
          simp [atEnd, loopStream, lineOf, Input.stream, Stream.before]
      | cons c more =>
        obtain ⟨input, read, rest⟩ := myRead_cons ahead
        rw [loop]
        simp only [read]
        by_cases ends : c = newline
        · simp [loopStream, lineOf, ends, rest]
        · have later := ih (n + 1) (ptr ++ [c]) input
          rw [if_neg ends, later, rest]
          have other : newline ≠ c := Ne.symm ends
          have count (k : Nat) : n + 1 + (k : Int) = n + ((k + 1 : Nat) : Int) := by push_cast; ring
          simp only [loopStream, lineOf, ends, if_false, List.mem_cons, other, false_or,
            List.length_cons, count, List.append_assoc, List.singleton_append, List.drop_succ_cons,
            Nat.add_right_cancel_iff]

theorem readline_stream (maxlen : Nat) (input : Input) :
    (readline maxlen input).map (fun (line, input) => (line, input.stream)) =
      readStream maxlen input.stream := by
  rw [readline, loop_stream, loopStream, readStream]
  simp only [List.nil_append, add_sub_cancel_left]
  simp only [add_comm (1 : Int)]

/-- Calls one after the other, as long as none waits for ever. -/
def readlines (maxlen : Nat) : Nat → Input → List Line
  | 0, _ => []
  | calls + 1, input =>
    match readline maxlen input with
    | none => []
    | some (line, input) => line :: readlines maxlen calls input

def readStreams (maxlen : Nat) : Nat → Stream → List Line
  | 0, _ => []
  | calls + 1, s =>
    match readStream maxlen s with
    | none => []
    | some (line, s) => line :: readStreams maxlen calls s

/-- **Pieces do not matter**: whatever pieces the bytes come in and however often `read` is
interrupted, calls of `readline` give the lines of the stream. -/
theorem readlines_stream (maxlen calls : Nat) (input : Input) :
    readlines maxlen calls input = readStreams maxlen calls input.stream := by
  induction calls generalizing input with
  | zero => rfl
  | succ calls ih =>
    have first := readline_stream maxlen input
    rw [readlines, readStreams, ← first]
    cases readline maxlen input with
    | none => rfl
    | some found => exact congrArg (found.1 :: ·) (ih found.2)

end Unp.Readline
