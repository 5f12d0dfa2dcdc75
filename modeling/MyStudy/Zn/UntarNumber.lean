import MyStudy.Zn.Untar
import Mathlib.Tactic.Ring

/-!
# Octal numbers of a tar header

The stream reads the octal digits of a header as one decimal number and then takes that number's
decimal digits for octal ones. The detour is exact as long as the decimal reading fits an
`unsigned int`.
-/
namespace Zn

/-- The octal digits of a number read as decimal ones. -/
def octalReading (n : Nat) : Nat := Nat.ofDigits 10 (Nat.digits 8 n)

theorem octalReading_step (n : Nat) : octalReading n = n % 8 + 10 * octalReading (n / 8) := by
  cases n with
  | zero => rfl
  | succ n => rw [octalReading, Nat.digits_def' (by omega) (by omega), Nat.ofDigits_cons]; rfl

theorem le_octalReading (n : Nat) : n ≤ octalReading n := by
  calc n = Nat.ofDigits 8 (Nat.digits 8 n) := (Nat.ofDigits_digits 8 n).symm
    _ ≤ octalReading n := Nat.ofDigits_monotone _ (by omega)

/-- A number of `k + 1` octal digits led by less than `c` reads as one led by less than `c`. -/
theorem octalReading_lt (k c n : Nat) (digit : c ≤ 8) (bound : n < 8 ^ k * c) :
    octalReading n < 10 ^ k * c := by
  induction k generalizing n with
  | zero =>
    rw [Nat.pow_zero, Nat.one_mul] at bound ⊢
    have quotient : n / 8 = 0 := by omega
    rw [octalReading_step, quotient]
    have : octalReading 0 = 0 := rfl
    omega
  | succ k ih =>
    have split : 8 ^ (k + 1) * c = 8 * (8 ^ k * c) := by ring
    -- the digits before the last one, and the last one below ten
    have front := ih (n / 8) (by omega)
    rw [octalReading_step]
    have : 10 ^ (k + 1) * c = 10 * (10 ^ k * c) := by ring
    omega

theorem numeral_padded (width n : Nat) (bound : n < 8 ^ width) :
    numeral 10 (padded 8 width n) = octalReading n := by
  induction width generalizing n with
  | zero =>
    have : n = 0 := by simpa using bound
    subst this
    rfl
  | succ width ih =>
    rw [padded, numeral_snoc, digitVal_digitByte _ (by omega), octalReading_step,
      ih (n / 8) (by rw [Nat.pow_succ] at bound; omega)]
    omega

theorem base8to10Loop_octalReading (rounds level n : Nat) (bound : octalReading n < 10 ^ rounds) :
    base8to10Loop rounds level (octalReading n) = 8 ^ level * n := by
  induction rounds generalizing level n with
  | zero =>
    -- out of rounds means out of digits
    have : n = 0 := by have := le_octalReading n; rw [Nat.pow_zero] at bound; omega
    simp [base8to10Loop, this]
  | succ rounds ih =>
    rw [base8to10Loop]
    split
    next zero =>
      have : n = 0 := by have := le_octalReading n; omega
      rw [this, Nat.mul_zero]
    · have step := octalReading_step n
      -- the last decimal digit is the last octal one, and the others are the rest
      have low : octalReading n % 10 = n % 8 := by omega
      have high : octalReading n / 10 = octalReading (n / 8) := by omega
      rw [low, high, ih (level + 1) (n / 8) (by rw [Nat.pow_succ] at bound; omega), Nat.pow_succ]
      calc n % 8 * 8 ^ level + 8 ^ level * 8 * (n / 8)
          = 8 ^ level * (n % 8 + 8 * (n / 8)) := by ring
        _ = 8 ^ level * n := by rw [Nat.mod_add_div]

/-! ### The size field -/

theorem numeral_dropWhile_zero (base : Nat) (ds : Bytes) :
    numeral base (ds.dropWhile (· = '0'.toUInt8)) = numeral base ds := by
  induction ds with
  | nil => rfl
  | cons d ds ih =>
    by_cases zero : d = '0'.toUInt8
    · have nothing : digitVal '0'.toUInt8 = 0 := by decide
      rw [List.dropWhile_cons_of_pos (by simpa using zero), ih, zero]
      simp only [numeral, List.foldl_cons, Nat.zero_mul, nothing]
    · rw [List.dropWhile_cons_of_neg (by simpa using zero)]

/-- A text that begins with neither a blank nor a sign gives the value of the digits it begins with,
or the largest number. -/
theorem extractUnsigned_of_plain (c : UInt8) (rest : Bytes)
    (blank : (c = 32 || (9 ≤ c && c ≤ 13)) = false) (minus : c ≠ '-'.toUInt8)
    (plus : c ≠ '+'.toUInt8) :
    extractUnsigned (c :: rest) =
      if 2 ^ 32 ≤ numeral 10 ((c :: rest).takeWhile isDigit) then 2 ^ 32 - 1
      else numeral 10 ((c :: rest).takeWhile isDigit) := by
  have unpadded : (c :: rest).dropWhile (fun c => c = 32 || (9 ≤ c && c ≤ 13)) = c :: rest :=
    List.dropWhile_cons_of_neg (by simp [blank])
  have notMinus : (c :: rest).head? ≠ some '-'.toUInt8 := by simpa using minus
  have notPlus : (c :: rest).head? ≠ some '+'.toUInt8 := by simpa using plus
  simp only [extractUnsigned, unpadded, notMinus, notPlus, decide_false, Bool.or_self,
    Bool.false_eq_true, if_false]

/-- Digits ended by NULs extract as their value when it fits, and as the largest number when it does
not. -/
theorem extractUnsigned_digits (ds nuls : Bytes) (digits : ∀ d ∈ ds, isDigit d = true)
    (ended : ∀ b ∈ nuls, b = 0) :
    extractUnsigned (ds ++ nuls) =
      if 2 ^ 32 ≤ numeral 10 ds then 2 ^ 32 - 1 else numeral 10 ds := by
  have taken : (ds ++ nuls).takeWhile isDigit = ds := by
    rw [List.takeWhile_append_of_pos digits]
    cases nuls with
    | nil => simp
    | cons b nuls =>
      rw [ended b (List.mem_cons_self ..)]
      simp [isDigit]
  -- the text is empty, or begins with a digit or a NUL: no blank and no sign
  cases text : ds ++ nuls with
  | nil =>
    obtain ⟨rfl, rfl⟩ := List.append_eq_nil_iff.mp text
    rfl
  | cons c rest =>
    have plain : (c = 32 || (9 ≤ c && c ≤ 13)) = false ∧ c ≠ '-'.toUInt8 ∧ c ≠ '+'.toUInt8 := by
      rcases List.mem_append.mp (text ▸ List.mem_cons_self .. : c ∈ ds ++ nuls) with digit | nul
      · exact (digit_plain c (digits c digit)).2
      · rw [ended c nul]
        decide
    rw [text] at taken
    rw [extractUnsigned_of_plain c rest plain.1 plain.2.1 plain.2.2, taken]

theorem numeral_zeros (zeros ds : Bytes) (all : ∀ b ∈ zeros, b = '0'.toUInt8) :
    numeral 10 (zeros ++ ds) = numeral 10 ds := by
  rw [← numeral_dropWhile_zero, List.dropWhile_append_of_pos (by simpa using all),
    numeral_dropWhile_zero]

/-- A number is written in a size field: blanks and zeros, its octal digits, then NULs and
blanks. -/
structure SizeField (n : Nat) (pad : Bytes) (width : Nat) (ends : Bytes) : Prop where
  written : n < 8 ^ width
  padding : ∀ b ∈ pad, b = '0'.toUInt8 ∨ b = ' '.toUInt8
  ended : ends ≠ []
  ending : ∀ b ∈ ends, b = 0 ∨ b = ' '.toUInt8
  length : pad.length + width + ends.length = 12

/-- The leading zeros and all blanks go: digits are left, and NULs. -/
theorem ascii2uint_digits (body ends : Bytes)
    (digits : ∀ b ∈ body, isDigit b = true ∨ b = ' '.toUInt8)
    (ending : ∀ b ∈ ends, b = 0 ∨ b = ' '.toUInt8) : ascii2uint (body ++ ends) =
      if 2 ^ 32 ≤ numeral 10 (body.filter (· ≠ ' '.toUInt8)) then 2 ^ 32 - 1
      else numeral 10 (body.filter (· ≠ ' '.toUInt8)) := by
  have blanks : (((body ++ ends).takeWhile (· = '0'.toUInt8)).map fun _ => ' '.toUInt8).filter
      (· ≠ ' '.toUInt8) = [] := by
    simp
  have stripped : (body ++ ends).dropWhile (· = '0'.toUInt8) =
      body.dropWhile (· = '0'.toUInt8) ++ ends := by
    rw [List.dropWhile_append]
    split
    next all =>
      rw [List.isEmpty_iff.mp all, List.nil_append]
      cases ends with
      | nil => rfl
      | cons b ends =>
        refine List.dropWhile_cons_of_neg ?_
        rcases ending b (List.mem_cons_self ..) with rfl | rfl <;> decide
    · rfl
  -- the zeros that went have no value
  have value : numeral 10 ((body.dropWhile (· = '0'.toUInt8)).filter (· ≠ ' '.toUInt8)) =
      numeral 10 (body.filter (· ≠ ' '.toUInt8)) := by
    have parts : body.filter (· ≠ ' '.toUInt8) =
      (body.takeWhile (· = '0'.toUInt8)).filter (· ≠ ' '.toUInt8) ++
        (body.dropWhile (· = '0'.toUInt8)).filter (· ≠ ' '.toUInt8) := by
      rw [← List.filter_append, List.takeWhile_append_dropWhile]
    rw [parts, numeral_zeros]
    intro b member
    simpa using List.mem_takeWhile_imp (List.mem_of_mem_filter member)
  rw [ascii2uint, List.filter_append, blanks, List.nil_append, stripped, List.filter_append,
    extractUnsigned_digits _ _ (fun d member => ?_) (fun b member => ?_), value]
  · obtain ⟨inBody, other⟩ := List.mem_filter.mp member
    exact (digits d (List.dropWhile_subset _ inBody)).resolve_right (by simpa using other)
  · obtain ⟨inEnds, other⟩ := List.mem_filter.mp member
    exact (ending b inEnds).resolve_right (by simpa using other)

/-- The number that a size field is read as: its octal digits as decimal ones, or the largest
one. -/
theorem ascii2uint_sizeField {n : Nat} {pad : Bytes} {width : Nat} {ends : Bytes}
    (field : SizeField n pad width ends) : ascii2uint (pad ++ padded 8 width n ++ ends) =
      if 2 ^ 32 ≤ octalReading n then 2 ^ 32 - 1 else octalReading n := by
  obtain ⟨written, padding, -, ending, -⟩ := field
  have digits : ∀ d ∈ padded 8 width n, isDigit d = true :=
    fun d member => mem_padded 8 width n (by omega) (by omega) d member
  have kept : (pad ++ padded 8 width n).filter (· ≠ ' '.toUInt8) =
      pad.filter (· ≠ ' '.toUInt8) ++ padded 8 width n := by
    rw [List.filter_append]
    congr 1
    exact List.filter_eq_self.mpr fun d member => by simpa using (digit_plain d (digits d member)).1
  have value : numeral 10 ((pad ++ padded 8 width n).filter (· ≠ ' '.toUInt8)) =
      octalReading n := by
    rw [kept, numeral_zeros, numeral_padded width n written]
    intro b member
    obtain ⟨inPad, other⟩ := List.mem_filter.mp member
    exact (padding b inPad).resolve_right (by simpa using other)
  rw [ascii2uint_digits _ ends (fun b member => ?_) ending, value]
  rcases List.mem_append.mp member with inPad | digit
  · exact (padding b inPad).imp_left fun zero => by rw [zero]; rfl
  · exact .inl (digits b digit)

/-- The size field of a header, eleven octal digits and a NUL, reads back below 2^29. -/
theorem size_field_roundtrip (n : Nat) (bound : n < 2 ^ 29) :
    base8to10 (ascii2uint (padded 8 11 n ++ [0])) = n := by
  have field : SizeField n [] 11 [0] := ⟨by omega, by simp, by simp, by simp, rfl⟩
  -- 2^29 in octal is 4 and nine zeros, which an `unsigned int` can hold
  have small : octalReading n < 10 ^ 9 * 4 := octalReading_lt 9 4 n (by omega) (by omega)
  have read := ascii2uint_sizeField field
  rw [List.nil_append, if_neg (by omega)] at read
  rw [read, base8to10, base8to10Loop_octalReading 10 0 n (by omega), Nat.pow_zero, Nat.one_mul]

/-! ### Every size -/

theorem octalReading_strictMono : StrictMono octalReading := by
  intro n m less
  induction m using Nat.strong_induction_on generalizing n with
  | _ m ih =>
    rw [octalReading_step n, octalReading_step m]
    rcases Nat.lt_or_ge (n / 8) (m / 8) with front | same
    · have := ih (m / 8) (by omega) front
      omega
    · rw [show n / 8 = m / 8 by omega]
      omega

/-- The numbers whose octal digits, read as decimal ones, an `unsigned int` can hold. -/
theorem octalReading_fits (n : Nat) : octalReading n < 2 ^ 32 ↔ n ≤ 587202559 := by
  have largest : octalReading 587202559 = 4277777777 := by decide
  have next : octalReading 587202560 = 4300000000 := by decide
  constructor
  · intro fits
    by_contra more
    have := octalReading_strictMono.monotone (show 587202560 ≤ n by omega)
    omega
  · intro le
    have := octalReading_strictMono.monotone le
    omega

/-- A size is read back up to the octal number 4277777777. Beyond it the largest `unsigned int` is
read, and the one size that its digits happen to convert to. -/
theorem size_field_iff (n : Nat) (pad : Bytes) (width : Nat) (ends : Bytes)
    (field : SizeField n pad width ends) :
    base8to10 (ascii2uint (pad ++ padded 8 width n ++ ends)) = n ↔ n ≤ 587202559 ∨
      n = 590671565 := by
  rw [ascii2uint_sizeField field]
  split_ifs with large
  · have converted : base8to10 (2 ^ 32 - 1) = 590671565 := by decide
    have more : ¬ n ≤ 587202559 := fun le => absurd ((octalReading_fits n).mpr le) (by omega)
    rw [converted, or_iff_right more, eq_comm]
  · have fits : octalReading n < 2 ^ 32 := by omega
    refine iff_of_true ?_ (.inl ((octalReading_fits n).mp fits))
    rw [base8to10, base8to10Loop_octalReading 10 0 n (by omega), Nat.pow_zero, Nat.one_mul]

theorem size_field_iff_blank :
    base8to10 (ascii2uint ([' '.toUInt8, ' '.toUInt8] ++ padded 8 9 512 ++ [' '.toUInt8])) = 512 ↔
      512 ≤ 587202559 ∨ 512 = 590671565 :=
  size_field_iff 512 _ 9 _ ⟨by decide, by simp, by simp, by simp, rfl⟩

/-- A file of 560 MiB, which has a size with ten octal digits. -/
theorem size_field_overflow :
    base8to10 (ascii2uint (padded 8 11 587202560 ++ [0])) = 590671565 := by
  decide

end Zn
