import MyStudy.SimNsim.CommonTools

/-!
# A client session of the simulator

The thread of a connection reads until one read has a line end in it and gives all that has arrived
since to `doResponse`. What a read returns is up to the network, so that a read may hold the end of
one command and more, or only one byte of a line end.

## Main result

`socketSubThreadRun_iff`: the commands are answered one by one exactly when the reads end where the
commands do.
-/
namespace SimNsim

def socketLineMax : Nat := 1024

/-- The loop of `doRequest`, with what it has received so far; `pieces` are the results of the reads
to come, and behind them the client has disconnected. -/
def doRequest : Bytes → List Bytes → Option (Bytes × List Bytes)
  | _, [] => none
  | strRcv, piece :: pieces =>
    let rcvTmp := cstr piece
    -- only the piece read last is looked through for a line end
    if findCRLF rcvTmp then some (strRcv ++ rcvTmp, pieces) else doRequest (strRcv ++ rcvTmp) pieces

/-- A round of the session: what `doRequest` has received, and what `doResponse` is called with. -/
structure Call where
  strRecv : Bytes
  recvData : Bytes
  deriving DecidableEq, Repr

section Session

variable {σ : Type} (doResponse : σ → Bytes → σ × Bool)

/-- The loop of `socketSubThreadRun`; `doResponse` says whether the session goes on. A round takes a
piece at least, so as many rounds as pieces are enough. -/
def sessionLoop : Nat → σ → List Bytes → List Call
  | 0, _, _ => []
  | rounds + 1, s, pieces =>
    match doRequest [] pieces with
    | none => []
    | some (strRecv, rest) =>
      let recvData := strRecv.take (socketLineMax - 1)
      let (s', goesOn) := doResponse s recvData
      ⟨strRecv, recvData⟩ :: if goesOn then sessionLoop rounds s' rest else []

/-- `socketSubThreadRun` once the welcome is sent. -/
def socketSubThreadRun (s : σ) (pieces : List Bytes) : List Call :=
  sessionLoop doResponse pieces.length s pieces

end Session

/-! ### Commands and their segmentation -/

/-- The text of a command of a client. -/
structure ClientCommand where
  text : Bytes
  clean : 0 ∉ text
  noLineEnd : ¬ [cr, lf] <:+: text
  short : text.length < 1023

namespace ClientCommand

def line (c : ClientCommand) : Bytes := c.text ++ [cr, lf]

/-- The text that `doResponse` gets of a command; the buffer size may cost it the line end. -/
def recvData (c : ClientCommand) : Bytes := c.line.take (socketLineMax - 1)

end ClientCommand

def streamOf (commands : List ClientCommand) : Bytes := commands.flatMap ClientCommand.line

/-- A way for the stream of some commands to arrive. -/
structure Segmentation (commands : List ClientCommand) where
  pieces : List Bytes
  nonempty : ∀ piece ∈ pieces, piece ≠ []
  short : ∀ piece ∈ pieces, piece.length ≤ 1023
  joined : pieces.flatten = streamOf commands

/-- Some pieces are a command's line, and its line end is not torn apart. -/
def Frames (c : ClientCommand) (own : List Bytes) : Prop :=
  own.flatten = c.line ∧ own.getLast? ≠ some [lf]

section Answered

variable {σ : Type} (doResponse : σ → Bytes → σ × Bool)

/-- One call for each command in order, with its text, until a response closes the session. While it
goes on, a call takes the bytes of its command from the stream and no others. -/
def AnsweredInOrder : σ → List ClientCommand → List Call → Prop
  | _, [], calls => calls = []
  | s, c :: commands, calls =>
    ∃ call more, calls = call :: more ∧ call.recvData = c.recvData ∧
      if (doResponse s c.recvData).2 then
        call.strRecv = c.line ∧ AnsweredInOrder (doResponse s c.recvData).1 commands more
      else more = []

/-- Each command up to the one that closes the session is framed. Of a closing one that fills the
buffer nothing behind it can be seen, and it is enough that a piece with a line end comes. -/
def Framed : σ → List ClientCommand → List Bytes → Prop
  | _, [], _ => True
  | s, c :: commands, pieces =>
    if (doResponse s c.recvData).2 then
      ∃ own rest, pieces = own ++ rest ∧ Frames c own ∧
        Framed (doResponse s c.recvData).1 commands rest
    else
      (∃ own rest, pieces = own ++ rest ∧ Frames c own) ∨
        (1021 ≤ c.text.length ∧ ∃ piece ∈ pieces, findCRLF piece = true)

end Answered

/-! ### What `doRequest` takes -/

/-- It takes the pieces up to the first one with a line end. -/
theorem doRequest_eq (strRcv : Bytes) (front : List Bytes) (last : Bytes) (rest : List Bytes)
    (clean : ∀ piece ∈ front ++ [last], 0 ∉ piece)
    (none_ : ∀ piece ∈ front, findCRLF piece = false) (found : findCRLF last = true) :
    doRequest strRcv (front ++ last :: rest) =
      some (strRcv ++ (front ++ [last]).flatten, rest) := by
  induction front generalizing strRcv with
  | nil =>
    have whole := cstr_clean last (clean last (by simp))
    simp [doRequest, whole, found]
  | cons piece front ih =>
    have whole := cstr_clean piece (clean piece (by simp))
    rw [List.cons_append, doRequest]
    simp only [whole, none_ piece (by simp), Bool.false_eq_true, if_false]
    rw [ih _ (fun p member => clean p (List.mem_cons_of_mem _ member))
      (fun p member => none_ p (List.mem_cons_of_mem _ member))]
    simp [List.append_assoc]

theorem doRequest_none (strRcv : Bytes) (pieces : List Bytes) (clean : ∀ piece ∈ pieces, 0 ∉ piece)
    (none_ : ∀ piece ∈ pieces, findCRLF piece = false) : doRequest strRcv pieces = none := by
  induction pieces generalizing strRcv with
  | nil => rfl
  | cons piece pieces ih =>
    have whole := cstr_clean piece (clean piece (by simp))
    rw [doRequest]
    simp only [whole, none_ piece (by simp), Bool.false_eq_true, if_false]
    exact ih _ (fun p member => clean p (List.mem_cons_of_mem _ member))
      fun p member => none_ p (List.mem_cons_of_mem _ member)

/-- Pieces either have no line end, or a first one with it. -/
theorem first_lineEnd (pieces : List Bytes) :
    (∀ piece ∈ pieces, findCRLF piece = false) ∨
      ∃ front last rest, pieces = front ++ last :: rest ∧
        (∀ piece ∈ front, findCRLF piece = false) ∧ findCRLF last = true := by
  induction pieces with
  | nil => exact .inl (by simp)
  | cons piece pieces ih =>
    cases found : findCRLF piece with
    | true => exact .inr ⟨[], piece, pieces, rfl, by simp, found⟩
    | false =>
      rcases ih with none_ | ⟨front, last, rest, rfl, none_, found'⟩
      · exact .inl (by simpa [found] using none_)
      · exact .inr ⟨piece :: front, last, rest, rfl, by simpa [found] using none_, found'⟩

/-! ### Line ends in the stream -/

/-- What a command starts a stream with: a prefix with a line end has the whole line. -/
theorem line_prefix (c : ClientCommand) (more front back : Bytes)
    (joined : front ++ back = c.line ++ more) (lineEnd : [cr, lf] <:+: front) :
    c.line <+: front := by
  have left : front <+: c.line ++ more := joined ▸ List.prefix_append front back
  rcases List.prefix_or_prefix_of_prefix left (List.prefix_append c.line more) with short | whole
  · rcases List.prefix_concat_iff.mp (show front <+: (c.text ++ [cr]) ++ [lf] by
        simpa [ClientCommand.line] using short) with all | shorter
    · rw [all]
      simp [ClientCommand.line]
    -- without the last character there is no line end
    · exfalso
      rcases List.infix_concat_iff.mp (lineEnd.trans shorter.isInfix) with atEnd | inside
      · obtain ⟨before, same⟩ := atEnd
        have cut : (before ++ [cr]) ++ [lf] = c.text ++ [cr] := by simpa using same
        obtain ⟨_, last⟩ := List.append_inj' cut rfl
        exact absurd last (by decide)
      · exact c.noLineEnd inside
  · exact whole

/-- The framed pieces of a command: none but the last has a line end. -/
theorem Frames.cut {c : ClientCommand} {own : List Bytes} (framed : Frames c own)
    (nonempty : ∀ piece ∈ own, piece ≠ []) :
    ∃ front last, own = front ++ [last] ∧ (∀ piece ∈ front, findCRLF piece = false) ∧
      findCRLF last = true := by
  obtain ⟨joined, lastPiece⟩ := framed
  rcases List.eq_nil_or_concat' own with rfl | ⟨front, last, rfl⟩
  · simp [ClientCommand.line] at joined
  refine ⟨front, last, rfl, ?_⟩
  rw [List.getLast?_concat, Ne, Option.some_inj] at lastPiece
  rw [List.flatten_append, List.flatten_singleton, ClientCommand.line] at joined
  -- the last piece ends with the line feed and has more than that
  rcases List.eq_nil_or_concat' last with rfl | ⟨body, b, rfl⟩
  · exact absurd rfl (nonempty [] (by simp))
  have toFeed : (front.flatten ++ body) ++ [b] = (c.text ++ [cr]) ++ [lf] := by simpa using joined
  obtain ⟨toReturn, feed⟩ := List.append_inj' toFeed rfl
  rcases List.eq_nil_or_concat' body with rfl | ⟨text, a, rfl⟩
  · exact absurd feed lastPiece
  have returned : (front.flatten ++ text) ++ [a] = c.text ++ [cr] := by simpa using toReturn
  obtain ⟨start, return_⟩ := List.append_inj' returned rfl
  constructor
  · intro piece member
    rw [Bool.eq_false_iff, Ne, findCRLF_iff]
    intro lineEnd
    apply c.noLineEnd
    rw [← start]
    exact List.infix_append_of_infix_left (lineEnd.trans (List.infix_of_mem_flatten member))
  · rw [findCRLF_iff, feed, return_]
    exact ⟨text, [], by simp⟩

/-! ### The session -/

section Session

variable {σ : Type} (doResponse : σ → Bytes → σ × Bool)

theorem sessionLoop_nil (rounds : Nat) (s : σ) : sessionLoop doResponse rounds s [] = [] := by
  cases rounds <;> rfl

theorem sessionLoop_none (rounds : Nat) (s : σ) (pieces : List Bytes)
    (none_ : doRequest [] pieces = none) : sessionLoop doResponse rounds s pieces = [] := by
  cases rounds with
  | zero => rfl
  | succ rounds => rw [sessionLoop, none_]

/-- A piece is as clean as the stream. -/
theorem clean_of_joined (commands : List ClientCommand) (pieces : List Bytes)
    (joined : pieces.flatten = streamOf commands) : ∀ piece ∈ pieces, 0 ∉ piece := by
  intro piece member zero
  have among : 0 ∈ streamOf commands := joined ▸ List.mem_flatten_of_mem member zero
  obtain ⟨c, _, inside⟩ := List.mem_flatMap.mp among
  rcases List.mem_append.mp inside with text | lineEnd
  · exact c.clean text
  · revert lineEnd
    decide

/-- The text of a call is its command's if it is the command's line, or the line fills the
buffer. -/
theorem recvData_iff (c : ClientCommand) (strRecv : Bytes) (starts : c.line <+: strRecv) :
    strRecv.take (socketLineMax - 1) = c.recvData ↔ strRecv = c.line ∨ 1021 ≤ c.text.length := by
  obtain ⟨more, rfl⟩ := starts
  have length : c.line.length = c.text.length + 2 := by simp [ClientCommand.line]
  have size : socketLineMax - 1 = 1023 := rfl
  rw [ClientCommand.recvData, size]
  constructor
  · intro same
    by_cases long : 1021 ≤ c.text.length
    · exact .inr long
    · left
      -- the line is shorter than the buffer, and so is what was received
      rw [List.take_of_length_le (by omega : c.line.length ≤ 1023)] at same
      have lengths := congrArg List.length same
      rw [List.length_take, List.length_append] at lengths
      rw [List.eq_nil_of_length_eq_zero (by omega : more.length = 0), List.append_nil]
  · rintro (same | long)
    · rw [same]
    · exact List.take_append_of_le_length (by omega)

/-- Framed pieces are what the next call receives. -/
theorem Frames.doRequest {c : ClientCommand} {own rest : List Bytes} (framed : Frames c own)
    (nonempty : ∀ piece ∈ own, piece ≠ []) (clean : ∀ piece ∈ own, 0 ∉ piece) :
    doRequest [] (own ++ rest) = some (c.line, rest) := by
  obtain ⟨front, last, rfl, none_, found⟩ := framed.cut nonempty
  have taken := doRequest_eq [] front last rest clean none_ found
  rw [framed.1] at taken
  rw [List.append_assoc]
  exact taken

theorem frames_of_received {c : ClientCommand} {front : List Bytes} {last : Bytes}
    (found : findCRLF last = true) (line : (front ++ [last]).flatten = c.line) :
    Frames c (front ++ [last]) := by
  refine ⟨line, ?_⟩
  rw [List.getLast?_concat, Ne, Option.some_inj]
  rintro rfl
  exact absurd found (by decide)

theorem sessionLoop_iff (commands : List ClientCommand) (rounds : Nat) (s : σ) (pieces : List Bytes)
    (enough : pieces.length ≤ rounds) (nonempty : ∀ piece ∈ pieces, piece ≠ [])
    (joined : pieces.flatten = streamOf commands) :
    AnsweredInOrder doResponse s commands (sessionLoop doResponse rounds s pieces) ↔
      Framed doResponse s commands pieces := by
  induction commands generalizing rounds s pieces with
  | nil =>
    -- no command, no bytes, and so no pieces
    have none_ : pieces = [] := by
      rw [List.eq_nil_iff_forall_not_mem]
      intro piece member
      exact nonempty piece member (List.flatten_eq_nil_iff.mp joined piece member)
    rw [none_, sessionLoop_nil]
    exact iff_of_true rfl trivial
  | cons c commands ih =>
    have clean := clean_of_joined (c :: commands) pieces joined
    -- framed pieces are received together, whatever follows them
    have received (own rest : List Bytes) (cut : pieces = own ++ rest) (framed : Frames c own) :
        doRequest [] pieces = some (c.line, rest) := by
      rw [cut]
      exact framed.doRequest (fun piece member => nonempty piece (by simp [cut, member]))
        fun piece member => clean piece (by simp [cut, member])
    rcases first_lineEnd pieces with none_ | ⟨front, last, rest, cut, none_, found⟩
    · have nothing := doRequest_none [] pieces clean none_
      rw [sessionLoop_none doResponse rounds s pieces nothing]
      refine iff_of_false (by simp [AnsweredInOrder]) ?_
      rw [Framed]
      split
      · rintro ⟨own, rest, cut, framed, _⟩
        simp [received own rest cut framed] at nothing
      · rintro (⟨own, rest, cut, framed⟩ | ⟨_, piece, member, found⟩)
        · simp [received own rest cut framed] at nothing
        · simp [none_ piece member] at found
    · have taken := doRequest_eq [] front last rest
        (fun piece member => clean piece (by rw [cut]; simp at member ⊢; tauto)) none_ found
      rw [← cut, List.nil_append] at taken
      generalize line : (front ++ [last]).flatten = strRecv at taken
      have whole : strRecv ++ rest.flatten = c.line ++ streamOf commands := by
        rw [← line, ← List.flatten_append, List.append_assoc, List.singleton_append, ← cut, joined]
        rfl
      have starts : c.line <+: strRecv := by
        apply line_prefix c _ strRecv rest.flatten whole
        rw [← line, List.flatten_append, List.flatten_singleton]
        exact List.infix_append_of_infix_right ((findCRLF_iff last).mp found)
      -- a round takes the pieces up to the first line end
      obtain ⟨rounds, rfl⟩ : ∃ n, rounds = n + 1 := by
        rw [cut, List.length_append, List.length_cons] at enough
        exact ⟨rounds - 1, by omega⟩
      have fewer : rest.length ≤ rounds := by
        rw [cut, List.length_append, List.length_cons] at enough
        omega
      have others : ∀ piece ∈ rest, piece ≠ [] := fun piece member =>
        nonempty piece (by rw [cut]; simp [member])
      have exactly : strRecv = c.line → Frames c (front ++ [last]) := fun same =>
        frames_of_received found (line.trans same)
      have ends : pieces = (front ++ [last]) ++ rest := by rw [cut, List.append_assoc]; rfl
      have loop : sessionLoop doResponse (rounds + 1) s pieces =
          ⟨strRecv, strRecv.take (socketLineMax - 1)⟩ ::
            if (doResponse s (strRecv.take (socketLineMax - 1))).2 then
              sessionLoop doResponse rounds (doResponse s (strRecv.take (socketLineMax - 1))).1 rest
            else [] := by
        rw [sessionLoop, taken]
      rw [loop, AnsweredInOrder, Framed]
      cases goesOn : (doResponse s c.recvData).2 with
      | true =>
        simp only [if_true]
        constructor
        · rintro ⟨call, more, same, text, received, answered⟩
          obtain ⟨rfl, rfl⟩ := List.cons.inj same
          simp only at text received
          rw [text, goesOn, if_pos rfl] at answered
          have remaining : rest.flatten = streamOf commands := by
            rw [received] at whole
            exact List.append_cancel_left whole
          exact ⟨_, rest, ends, exactly received,
            (ih rounds _ rest fewer others remaining).mp answered⟩
        · rintro ⟨own, rest', cut', framed, later⟩
          obtain ⟨rfl, rfl⟩ : strRecv = c.line ∧ rest = rest' := by
            simpa using taken.symm.trans (received own rest' cut' framed)
          have remaining : rest.flatten = streamOf commands := List.append_cancel_left whole
          have text : c.line.take (socketLineMax - 1) = c.recvData := rfl
          refine ⟨_, _, rfl, rfl, rfl, ?_⟩
          rw [text, goesOn, if_pos rfl]
          exact (ih rounds _ rest fewer others remaining).mpr later
      | false =>
        simp only [Bool.false_eq_true, if_false]
        constructor
        · rintro ⟨call, more, same, text, _⟩
          obtain ⟨rfl, _⟩ := List.cons.inj same
          rcases (recvData_iff c strRecv starts).mp text with received | long
          · exact .inl ⟨_, rest, ends, exactly received⟩
          · exact .inr ⟨long, last, by rw [cut]; simp, found⟩
        · intro framed
          have text : strRecv.take (socketLineMax - 1) = c.recvData := by
            rw [recvData_iff c strRecv starts]
            rcases framed with ⟨own, rest', cut', framed⟩ | ⟨long, _⟩
            · left
              exact (Prod.mk.inj
                (Option.some.inj (taken.symm.trans (received own rest' cut' framed)))).1
            · exact .inr long
          refine ⟨_, _, rfl, text, ?_⟩
          rw [text, goesOn, if_neg Bool.false_ne_true]

/-- The calls of `doResponse` are right exactly when the commands are framed by the reads. -/
theorem socketSubThreadRun_iff (s : σ) (commands : List ClientCommand)
    (arrival : Segmentation commands) :
    AnsweredInOrder doResponse s commands (socketSubThreadRun doResponse s arrival.pieces) ↔
      Framed doResponse s commands arrival.pieces :=
  sessionLoop_iff doResponse commands _ s arrival.pieces (Nat.le_refl _) arrival.nonempty
    arrival.joined

end Session

/-- Two commands that arrive in one read. -/
def pipelined : List ClientCommand :=
  [⟨ascii "1 ZLOGIN a b", by decide, by decide, by decide⟩,
    ⟨ascii "2 ZLOGOUT", by decide, by decide, by decide⟩]

/-- The second command gets no call of its own. -/
theorem socketSubThreadRun_pipelined :
    let arrival : Segmentation pipelined :=
      ⟨[ascii "1 ZLOGIN a b\r\n2 ZLOGOUT\r\n"], by decide, by decide, by decide⟩
    ¬ AnsweredInOrder (fun (s : Unit) _ => (s, true)) () pipelined
        (socketSubThreadRun (fun s _ => (s, true)) () arrival.pieces) := by
  intro arrival
  rintro ⟨call, more, same, text, _⟩
  have ran : socketSubThreadRun (fun (s : Unit) _ => (s, true)) () arrival.pieces =
      [⟨ascii "1 ZLOGIN a b\r\n2 ZLOGOUT\r\n", ascii "1 ZLOGIN a b\r\n2 ZLOGOUT\r\n"⟩] := by
    decide +kernel
  obtain ⟨rfl, _⟩ := List.cons.inj (ran.symm.trans same)
  revert text
  decide

end SimNsim
