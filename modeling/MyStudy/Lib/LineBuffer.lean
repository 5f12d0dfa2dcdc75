import Mathlib.Data.List.TakeWhile

/-!
# Lines through a buffer

Reading a text line by line into a buffer of a fixed size: a line that does not fit is cut, and
nothing behind it is read.
-/

namespace LineBuffer

variable {α : Type} [DecidableEq α] (delim : α) (size : Nat)

/-- The next line, and the text behind it if reading can go on. The buffer keeps one place for a
terminator. -/
def getline (text : List α) : List α × Option (List α) :=
  let line := text.takeWhile (· ≠ delim)
  if size ≤ line.length then (text.take (size - 1), none)
  else if line.length = text.length then (line, none)
  else (line, some (text.drop (line.length + 1)))

/-- All lines. A round takes its line and the delimiter off the text. -/
def getlines : Nat → List α → List (List α)
  | 0, _ => []
  | rounds + 1, text =>
    match getline delim size text with
    | (line, none) => [line]
    | (line, some rest) => line :: getlines rounds rest

/-- What is read of a text of closed lines. -/
def cut : List (List α) → List (List α)
  | [] => [[]]
  | line :: lines => if line.length < size then line :: cut lines else [line.take (size - 1)]

theorem getline_cons (line rest : List α) (clean : delim ∉ line) :
    getline delim size (line ++ delim :: rest) =
      if line.length < size then (line, some rest) else (line.take (size - 1), none) := by
  have apart : ∀ c ∈ line, decide (c ≠ delim) = true := by
    simpa using fun c member => ne_of_mem_of_not_mem member clean
  have scanned : (line ++ delim :: rest).takeWhile (· ≠ delim) = line := by
    rw [List.takeWhile_append_of_pos apart, List.takeWhile_cons_of_neg (by simp), List.append_nil]
  simp only [getline, scanned]
  split
  next long =>
    -- the buffer is full before the delimiter is reached
    have within : size - 1 ≤ line.length := by omega
    rw [if_neg (by omega), List.take_append_of_le_length within]
  next short =>
    rw [if_neg (by simp), if_pos (by omega), ← List.drop_drop]
    simp

theorem getlines_closed (pos : 0 < size) (rounds : Nat) (lines : List (List α))
    (clean : ∀ line ∈ lines, delim ∉ line) (enough : lines.length < rounds) :
    getlines delim size rounds (lines.flatMap (· ++ [delim])) = cut size lines := by
  induction rounds generalizing lines with
  | zero => omega
  | succ rounds ih =>
    cases lines with
    -- behind the last line the text is empty, and so is what is read of it
    | nil =>
      simp only [List.flatMap_nil, getlines, getline, List.takeWhile_nil, List.length_nil, cut]
      rw [if_neg (by omega)]
      simp
    | cons line lines =>
      have front : (line :: lines).flatMap (· ++ [delim]) =
          line ++ delim :: lines.flatMap (· ++ [delim]) := by simp
      rw [front, getlines, getline_cons delim size line _ (clean line (by simp)), cut]
      by_cases fits : line.length < size
      · rw [if_pos fits, if_pos fits]
        simp only
        rw [ih lines (fun other member => clean other (by simp [member]))
          (Nat.lt_of_succ_lt_succ enough)]
      · rw [if_neg fits, if_neg fits]

/-- What is read of the lines of a text, of which the last one is open. -/
def cutOpen : List (List α) → List (List α)
  | [] => []
  | line :: lines =>
    if size ≤ line.length then [line.take (size - 1)] else line :: cutOpen lines

/-- Any text is read like the lines it is made of. -/
theorem getlines_splitOn (rounds : Nat) (text : List α) (enough : text.length < rounds) :
    getlines delim size rounds text = cutOpen size (text.splitOn delim) := by
  induction rounds generalizing text with
  | zero => omega
  | succ rounds ih =>
    by_cases more : delim ∈ text
    · obtain ⟨line, rest, rfl, clean⟩ := List.eq_append_cons_of_mem more
      rw [getlines, getline_cons delim size line rest clean,
        List.splitOn_append_cons_self_of_not_mem clean, cutOpen]
      by_cases fits : line.length < size
      · have fewer : rest.length < rounds := by
          rw [List.length_append, List.length_cons] at enough
          omega
        rw [if_pos fits, if_neg (by omega)]
        exact congrArg (line :: ·) (ih rest fewer)
      · rw [if_neg fits, if_pos (by omega)]
    -- the last line is all of the text
    · have whole : text.takeWhile (· ≠ delim) = text :=
        List.takeWhile_eq_self_iff.mpr fun c member => by
        simpa using ne_of_mem_of_not_mem member more
      rw [getlines, getline, whole, List.splitOn_eq_singleton more, cutOpen]
      by_cases fits : size ≤ text.length
      · rw [if_pos fits, if_pos fits]
      · rw [if_neg fits, if_neg fits, if_pos rfl]
        rfl

end LineBuffer
