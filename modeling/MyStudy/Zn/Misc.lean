import MyStudy.Lib.Bytes

/-!
# String helpers of the migration tool

The parts of `zn_misc` the other modules call. `find_last_of` and `getline` follow the C++
library; the byte constants name the characters the sources spell out.
-/
namespace Zn

abbrev slash : UInt8 := '/'.toUInt8

abbrev comma : UInt8 := ','.toUInt8

/-- `s.find_last_of(c)`. -/
def findLastOf (c : UInt8) : Bytes → Option Nat
  | [] => none
  | x :: xs =>
    match findLastOf c xs with
    | some i => some (i + 1)
    | none => if x = c then some 0 else none

theorem findLastOf_eq_none (c : UInt8) (s : Bytes) (absent : c ∉ s) : findLastOf c s = none := by
  induction s with
  | nil => rfl
  | cons x xs ih =>
    rw [List.mem_cons, not_or] at absent
    rw [findLastOf, ih absent.2, if_neg (Ne.symm absent.1)]

theorem findLastOf_append (c : UInt8) (front back : Bytes) (absent : c ∉ back) :
    findLastOf c (front ++ c :: back) = some front.length := by
  induction front with
  | nil => simp [findLastOf, findLastOf_eq_none c back absent]
  | cons x xs ih => simp [findLastOf, ih]

/-- A string with the character in it has a last occurrence of it. -/
theorem exists_last (c : UInt8) (s : Bytes) (member : c ∈ s) :
    ∃ front back, s = front ++ c :: back ∧ c ∉ back := by
  induction s with
  | nil => simp at member
  | cons x xs ih =>
    -- the last occurrence is in the tail, or it is this one
    by_cases later : c ∈ xs
    · obtain ⟨front, back, rfl, absent⟩ := ih later
      exact ⟨x :: front, back, rfl, absent⟩
    · have here : c = x := by simpa [later] using member
      exact ⟨[], xs, by rw [here]; rfl, later⟩

def dirname (filename : Bytes) : Bytes :=
  match findLastOf slash filename with
  | none => ascii "."
  | some i => filename.take i

def basename (filename : Bytes) : Bytes :=
  match findLastOf slash filename with
  | none => filename
  | some i => filename.drop (i + 1)

theorem dirname_append (dir base : Bytes) (plain : slash ∉ base) :
    dirname (dir ++ slash :: base) = dir := by
  simp [dirname, findLastOf_append slash dir base plain]

/-- `split`: `getline` gives the pieces between delimiters, but none after a final one. -/
def split (s : Bytes) (delim : UInt8) : List Bytes :=
  let parts := s.splitOn delim
  -- a delimiter at the end opens no piece
  if parts.getLast? = some [] then parts.dropLast else parts

/-- `join`, which its only caller never gives an empty vector. -/
def join (v : List Bytes) (delim : UInt8) : Bytes := [delim].intercalate v

/-- The pieces of a string cut at a delimiter hold characters of the string other than it. -/
theorem mem_splitOn_chars (delim c : UInt8) (s piece : Bytes) (member : piece ∈ s.splitOn delim)
    (among : c ∈ piece) : c ∈ s ∧ c ≠ delim := by
  induction s generalizing piece with
  | nil =>
    rw [List.splitOn_nil, List.mem_singleton] at member
    simp [member] at among
  | cons x xs ih =>
    rw [List.splitOn_cons_eq_if_modifyHead] at member
    split at member
    -- the delimiter closes an empty piece
    · rcases List.mem_cons.mp member with rfl | later
      · simp at among
      · exact (ih piece later among).imp_left (List.mem_cons_of_mem x)
    next other =>
      -- any other character goes in front of the first piece of the rest
      obtain ⟨first, more, parts⟩ := List.exists_cons_of_ne_nil (List.splitOn_ne_nil delim xs)
      rw [parts, List.modifyHead_cons] at member
      rcases List.mem_cons.mp member with rfl | later
      · rcases List.mem_cons.mp among with rfl | inside
        · exact ⟨by simp, fun same => other (by simp [same])⟩
        · exact (ih first (by rw [parts]; simp) inside).imp_left (List.mem_cons_of_mem x)
      · exact (ih piece (by rw [parts]; simp [later]) among).imp_left (List.mem_cons_of_mem x)

theorem mem_split_chars (s piece : Bytes) (delim c : UInt8) (member : piece ∈ split s delim)
    (among : c ∈ piece) : c ∈ s ∧ c ≠ delim := by
  have cut : piece ∈ s.splitOn delim := by
    rw [split] at member
    split at member
    · exact List.mem_of_mem_dropLast member
    · exact member
  exact mem_splitOn_chars delim c s piece cut among

theorem mem_split_clean (s piece : Bytes) (delim : UInt8) (member : piece ∈ split s delim) :
    delim ∉ piece := fun among => (mem_split_chars s piece delim delim member among).2 rfl

/-- Pieces without the delimiter come back from their `join`, but for an empty last one. -/
theorem split_intercalate (pieces : List Bytes) (delim : UInt8) (some_ : pieces ≠ [])
    (clean : ∀ piece ∈ pieces, delim ∉ piece) :
    split ([delim].intercalate pieces) delim =
      if pieces.getLast? = some [] then pieces.dropLast else pieces := by
  rw [split, List.splitOn_intercalate delim clean some_]

theorem length_splitOn (s : Bytes) (delim : UInt8) :
    (s.splitOn delim).length = s.count delim + 1 := by
  induction s with
  | nil => rfl
  | cons c s ih =>
    rw [List.splitOn_cons_eq_if_modifyHead, List.count_cons]
    split
    · simp [ih]
    · simp [ih]

theorem length_split_le (s : Bytes) (delim : UInt8) :
    (split s delim).length ≤ s.count delim + 1 := by
  rw [split]
  split
  · rw [List.length_dropLast, length_splitOn]
    omega
  · exact (length_splitOn s delim).le

/-- `from_string<int>`. A text of blanks leaves the variable as it was, which is uninitialised; a
text without digits gives 0, and a number out of range the nearest `int`. -/
def fromStringInt (uninit : Int) (text : Bytes) : Int :=
  let unpadded := text.dropWhile fun c => c = 32 || (9 ≤ c && c ≤ 13)
  if unpadded = [] then uninit
  else
    let signed := unpadded.head? = some '-'.toUInt8
    let unsigned :=
      if signed || unpadded.head? = some '+'.toUInt8 then unpadded.drop 1 else unpadded
    let value : Int := numeral 10 (unsigned.takeWhile isDigit)
    -- out of range: the stream stores the nearest `int`
    if signed then max (-2 ^ 31) (-value) else min (2 ^ 31 - 1) value

/-- A digit is neither a blank nor a sign. -/
theorem digit_plain (d : UInt8) (digit : isDigit d = true) :
    d ≠ ' '.toUInt8 ∧ (d = 32 || (9 ≤ d && d ≤ 13)) = false ∧ d ≠ '-'.toUInt8 ∧
      d ≠ '+'.toUInt8 := by
  have apart (c : UInt8) (other : isDigit c = false) : d ≠ c := by
    rintro rfl
    exact Bool.false_ne_true (other.symm.trans digit)
  -- a digit lies above all the blanks but the space
  have above : ¬ d ≤ 13 := by
    have low := ((isDigit_iff d).mp digit).1
    have thirteen : (13 : UInt8).toNat = 13 := rfl
    rw [UInt8.le_iff_toNat_le, thirteen]
    omega
  exact ⟨apart _ (by decide), by simp [apart 32 (by decide), above], apart _ (by decide),
    apart _ (by decide)⟩

/-- `to_string` of an `int`. -/
def toStringInt (n : Int) : Bytes :=
  if n < 0 then '-'.toUInt8 :: decimal n.natAbs else decimal n.natAbs

/-- `isspace`. -/
def isBlank (c : UInt8) : Bool := c = 32 || (9 ≤ c && c ≤ 13)

/-- The number a text starts with: blanks, a sign, and digits, of which there may be none. -/
def leadingInt (text : Bytes) : Int :=
  let unpadded := text.dropWhile isBlank
  let signed := unpadded.head? = some '-'.toUInt8
  let unsigned := if signed || unpadded.head? = some '+'.toUInt8 then unpadded.drop 1 else unpadded
  let value : Int := numeral 10 (unsigned.takeWhile isDigit)
  if signed then -value else value

/-- `atoi`: `strtol` stops at the ends of a `long`, and the low half of it is returned. -/
def atoi (text : Bytes) : Int :=
  Int.bmod (max (-2 ^ 63) (min (2 ^ 63 - 1) (leadingInt text))) (2 ^ 32)

/-- The range of an `int`. -/
def IsInt (n : Int) : Prop := -2 ^ 31 ≤ n ∧ n < 2 ^ 31

theorem mem_toStringInt (n : Int) (c : UInt8) (member : c ∈ toStringInt n) :
    c = '-'.toUInt8 ∨ isDigit c = true := by
  rw [toStringInt] at member
  split at member
  · rcases List.mem_cons.mp member with sign | digit
    · exact .inl sign
    · exact .inr (mem_decimal _ c digit)
  · exact .inr (mem_decimal _ c member)

theorem toStringInt_ne_nil (n : Int) : toStringInt n ≠ [] := by
  rw [toStringInt]
  split
  · simp
  · exact decimal_ne_nil _

/-- A number in the text form is free of whatever is no digit and no sign. -/
theorem notMem_toStringInt (n : Int) (c : UInt8) (other : c ≠ '-'.toUInt8)
    (plain : isDigit c = false) :
    c ∉ toStringInt n := by
  intro member
  rcases mem_toStringInt n c member with sign | digit
  · exact other sign
  · rw [plain] at digit
    cases digit

theorem isBlank_dropWhile_decimal (n : Nat) : (decimal n).dropWhile isBlank = decimal n := by
  obtain ⟨d, rest, text⟩ := List.exists_cons_of_ne_nil (decimal_ne_nil n)
  have digit : isDigit d = true := mem_decimal n d (by rw [text]; simp)
  obtain ⟨_, blank, _, _⟩ := digit_plain d digit
  rw [text, List.dropWhile_cons_of_neg (by rw [isBlank, blank]; simp)]

theorem leadingInt_toStringInt (n : Int) : leadingInt (toStringInt n) = n := by
  have digits : (decimal n.natAbs).takeWhile isDigit = decimal n.natAbs :=
    List.takeWhile_eq_self_iff.mpr (mem_decimal _)
  rw [toStringInt]
  split
  next negative =>
    -- the sign is taken off
    have unpadded : ('-'.toUInt8 :: decimal n.natAbs).dropWhile isBlank =
        '-'.toUInt8 :: decimal n.natAbs := List.dropWhile_cons_of_neg (by decide)
    simp only [leadingInt, unpadded, List.head?_cons, decide_true, Bool.true_or, if_true,
      List.drop_one, List.tail_cons, digits, numeral_decimal]
    omega
  next nonnegative =>
    obtain ⟨d, rest, text⟩ := List.exists_cons_of_ne_nil (decimal_ne_nil n.natAbs)
    have digit : isDigit d = true := mem_decimal n.natAbs d (by rw [text]; simp)
    obtain ⟨_, _, minus, plus⟩ := digit_plain d digit
    have first : (decimal n.natAbs).head? = some d := by rw [text]; rfl
    simp only [leadingInt, isBlank_dropWhile_decimal, first, Option.some_inj, minus, plus,
      decide_false, Bool.or_self, Bool.false_eq_true, if_false, digits, numeral_decimal]
    omega

theorem fromStringInt_eq (uninit : Int) (text : Bytes) (some_ : text.dropWhile isBlank ≠ []) :
    fromStringInt uninit text = max (-2 ^ 31) (min (2 ^ 31 - 1) (leadingInt text)) := by
  have blanks : text.dropWhile (fun c => c = 32 || (9 ≤ c && c ≤ 13)) =
      text.dropWhile isBlank := rfl
  simp only [fromStringInt, leadingInt, blanks, some_, if_false]
  split <;> omega

theorem toStringInt_unpadded (n : Int) : (toStringInt n).dropWhile isBlank ≠ [] := by
  rw [toStringInt]
  split
  · rw [List.dropWhile_cons_of_neg (by decide)]
    simp
  · rw [isBlank_dropWhile_decimal]
    exact decimal_ne_nil _

theorem fromStringInt_toStringInt (uninit n : Int) (range : IsInt n) :
    fromStringInt uninit (toStringInt n) = n := by
  obtain ⟨low, high⟩ := range
  rw [fromStringInt_eq uninit _ (toStringInt_unpadded n), leadingInt_toStringInt]
  omega

theorem atoi_toStringInt (n : Int) (range : IsInt n) : atoi (toStringInt n) = n := by
  obtain ⟨low, high⟩ := range
  rw [atoi, leadingInt_toStringInt, max_eq_right (by omega), min_eq_right (by omega)]
  exact Int.bmod_eq_of_le (by omega) (by omega)

theorem length_toStringInt (n : Int) (range : IsInt n) : (toStringInt n).length ≤ 11 := by
  obtain ⟨low, high⟩ := range
  have ten : (decimal n.natAbs).length ≤ 10 := length_decimal_le 10 _ (by omega) (by omega)
  rw [toStringInt]
  split
  · rw [List.length_cons]
    omega
  · omega

/-- `replace_charactor_all` with a single character to search for, as all its callers have. -/
def replaceCharactorAll (str : Bytes) (search : UInt8) (rep : Bytes) : Bytes :=
  str.flatMap fun c => if c = search then rep else [c]

end Zn
