import Mathlib.Data.Nat.Digits.Lemmas
import Mathlib.Data.List.TakeWhile

/-!
# Byte strings

Byte strings as lists, C strings inside them, and numbers written in digits.
-/

abbrev Bytes := List UInt8

/-- The bytes of a text with code points below 256. -/
def ascii (text : String) : Bytes := text.toList.map fun c => UInt8.ofNat c.toNat

/-! ### C strings -/

/-- The C string at the front of a byte string: everything before the first NUL. -/
def cstr (b : Bytes) : Bytes := b.takeWhile (· != 0)

theorem cstr_terminated (a b : Bytes) (clean : 0 ∉ a) : cstr (a ++ 0 :: b) = a := by
  have all : ∀ x ∈ a, (x != 0) = true := by
    intro x member
    have : x ≠ 0 := fun zero => clean (zero ▸ member)
    simpa using this
  rw [cstr, List.takeWhile_append_of_pos all]
  simp

theorem cstr_clean (a : Bytes) (clean : 0 ∉ a) : cstr a = a := by
  rw [cstr, List.takeWhile_eq_self_iff]
  intro x member
  have : x ≠ 0 := fun zero => clean (zero ▸ member)
  simpa using this

theorem nul_notMem_cstr (a : Bytes) : 0 ∉ cstr a := fun zero => by
  simpa using List.mem_takeWhile_imp zero

theorem cstr_eq_self_iff (a : Bytes) : cstr a = a ↔ 0 ∉ a := by
  constructor
  · intro same
    rw [← same]
    exact nul_notMem_cstr a
  · exact cstr_clean a

theorem idxOf?_append_cons (front rest : Bytes) (c : UInt8) (absent : c ∉ front) :
    (front ++ c :: rest).idxOf? c = some front.length := by
  induction front with
  | nil => simp [List.idxOf?_cons]
  | cons d front ih =>
    rw [List.mem_cons, not_or] at absent
    have other : (d == c) = false := by simpa using Ne.symm absent.1
    rw [List.cons_append, List.idxOf?_cons, other, ih absent.2]
    rfl

/-! ### Digits -/

def isDigit (b : UInt8) : Bool := 48 ≤ b && b ≤ 57

def digitByte (d : Nat) : UInt8 := UInt8.ofNat (48 + d)

def digitVal (b : UInt8) : Nat := b.toNat - 48

theorem digitVal_digitByte (d : Nat) (small : d < 10) : digitVal (digitByte d) = d := by
  simp only [digitVal, digitByte, UInt8.toNat_ofNat']
  omega

theorem isDigit_digitByte (d : Nat) (small : d < 10) : isDigit (digitByte d) = true := by
  have val : (UInt8.ofNat (48 + d)).toNat = 48 + d := by
    rw [UInt8.toNat_ofNat']; omega
  simp only [isDigit, digitByte, Bool.and_eq_true, decide_eq_true_eq, UInt8.le_iff_toNat_le, val]
  exact ⟨by simp, by simpa using (by omega : 48 + d ≤ 57)⟩

theorem isDigit_iff (b : UInt8) : isDigit b = true ↔ 48 ≤ b.toNat ∧ b.toNat ≤ 57 := by
  simp [isDigit, UInt8.le_iff_toNat_le]

/-- The value of a digit string in a base. -/
def numeral (base : Nat) (ds : Bytes) : Nat := ds.foldl (fun v d => v * base + digitVal d) 0

theorem numeral_snoc (base : Nat) (ds : Bytes) (d : UInt8) :
    numeral base (ds ++ [d]) = numeral base ds * base + digitVal d := by
  simp [numeral]

/-- The decimal digits of a number, without leading zeros. -/
def decimal (n : Nat) : Bytes :=
  if n = 0 then [digitByte 0] else (Nat.digits 10 n).reverse.map digitByte

theorem decimal_ne_nil (n : Nat) : decimal n ≠ [] := by
  rw [decimal]
  split
  · simp
  -- a number that is not 0 has a digit
  next nonzero => simpa [Nat.digits_eq_nil_iff_eq_zero] using nonzero

theorem mem_decimal (n : Nat) (b : UInt8) (member : b ∈ decimal n) : isDigit b = true := by
  rw [decimal] at member
  split at member
  · rw [List.mem_singleton.mp member]
    exact isDigit_digitByte 0 (by omega)
  · obtain ⟨d, digit, rfl⟩ := List.mem_map.mp member
    exact isDigit_digitByte d (Nat.digits_lt_base (by omega) (List.mem_reverse.mp digit))

private theorem numeral_reverse_digits (base : Nat) (ds : List Nat) (small : ∀ d ∈ ds, d < 10) :
    numeral base (ds.reverse.map digitByte) = Nat.ofDigits base ds := by
  induction ds with
  | nil => rfl
  | cons d ds ih =>
    -- the digits come with the lowest first, and a numeral ends with it
    rw [List.reverse_cons, List.map_append, List.map_singleton, numeral_snoc,
      ih fun x member => small x (List.mem_cons_of_mem d member),
      digitVal_digitByte d (small d (by simp)), Nat.ofDigits_cons]
    simp only [Nat.mul_comm, Nat.add_comm]

theorem length_decimal_le (width n : Nat) (pos : 0 < width) (small : n < 10 ^ width) :
    (decimal n).length ≤ width := by
  rw [decimal]
  split
  · exact pos
  · rw [List.length_map, List.length_reverse]
    exact (Nat.digits_length_le_iff (by omega) n).mpr small

theorem numeral_decimal (n : Nat) : numeral 10 (decimal n) = n := by
  rw [decimal]
  split
  next zero => subst zero; rfl
  · rw [numeral_reverse_digits 10 _ fun d digit => Nat.digits_lt_base (by omega) digit,
      Nat.ofDigits_digits]

theorem decimal_injective : Function.Injective decimal := by
  intro m n same
  rw [← numeral_decimal m, ← numeral_decimal n, same]

/-- What `decimal` writes: digits, and no leading zero but in front of nothing. -/
structure Canonical (ds : Bytes) : Prop where
  nonempty : ds ≠ []
  digits : ∀ d ∈ ds, isDigit d = true
  leading : ds = [digitByte 0] ∨ ds.head? ≠ some (digitByte 0)

theorem digitByte_digitVal (d : UInt8) (digit : isDigit d = true) : digitByte (digitVal d) = d := by
  have range := (isDigit_iff d).mp digit
  rw [digitByte, digitVal, show 48 + (d.toNat - 48) = d.toNat by omega]
  simp

theorem digitVal_lt (d : UInt8) (digit : isDigit d = true) : digitVal d < 10 := by
  have range := (isDigit_iff d).mp digit
  rw [digitVal]
  omega

theorem canonical_decimal (n : Nat) : Canonical (decimal n) := by
  refine ⟨decimal_ne_nil n, mem_decimal n, ?_⟩
  rw [decimal]
  split
  · exact .inl rfl
  next nonzero =>
    right
    -- the first digit written is the last, nonzero one of the expansion
    have some_ : Nat.digits 10 n ≠ [] := Nat.digits_ne_nil_iff_ne_zero.mpr nonzero
    have last := Nat.getLast_digit_ne_zero 10 nonzero
    have small := Nat.digits_lt_base (m := n) (by omega : 1 < 10) (List.getLast_mem some_)
    rw [List.head?_map, List.head?_reverse, List.getLast?_eq_some_getLast some_, Option.map_some]
    intro zero
    have same := congrArg digitVal (Option.some.inj zero)
    rw [digitVal_digitByte _ small, digitVal_digitByte 0 (by omega)] at same
    exact last same

theorem decimal_numeral (ds : Bytes) (canonical : Canonical ds) : decimal (numeral 10 ds) = ds := by
  obtain ⟨nonempty, digits, rfl | leading⟩ := canonical
  · rfl
  let values := (ds.map digitVal).reverse
  have small : ∀ v ∈ values, v < 10 := by
    intro v member
    obtain ⟨d, among, rfl⟩ := List.mem_map.mp (List.mem_reverse.mp member)
    exact digitVal_lt d (digits d among)
  have written : values.reverse.map digitByte = ds := by
    rw [List.reverse_reverse, List.map_map]
    exact (List.map_congr_left fun d among => digitByte_digitVal d (digits d among)).trans
      (List.map_id ds)
  have value : numeral 10 ds = Nat.ofDigits 10 values := by
    rw [← numeral_reverse_digits 10 values small, written]
  -- the digits end with the first one written, which is not 0
  have expansion : Nat.digits 10 (Nat.ofDigits 10 values) = values := by
    apply Nat.digits_ofDigits 10 (by omega) values small
    intro some_ zero
    obtain ⟨d, rest, rfl⟩ := List.exists_cons_of_ne_nil nonempty
    have first : digitVal d = 0 := by simpa [values] using zero
    apply leading
    rw [← first, digitByte_digitVal d (digits d (by simp))]
    rfl
  have nonzero : Nat.ofDigits 10 values ≠ 0 := by
    intro zero
    rw [zero, Nat.digits_zero] at expansion
    rw [← expansion] at written
    exact nonempty written.symm
  rw [value, decimal, if_neg nonzero, expansion, written]

/-- The last `width` digits of a number in a base up to ten, with leading zeros. -/
def padded (base : Nat) : Nat → Nat → Bytes
  | 0, _ => []
  | width + 1, n => padded base width (n / base) ++ [digitByte (n % base)]

@[simp] theorem padded_length (base width n : Nat) : (padded base width n).length = width := by
  induction width generalizing n with
  | zero => rfl
  | succ width ih => simp [padded, ih]

theorem mem_padded (base width n : Nat) (pos : 0 < base) (small : base ≤ 10) (b : UInt8)
    (member : b ∈ padded base width n) : isDigit b = true := by
  induction width generalizing n with
  | zero => simp [padded] at member
  | succ width ih =>
    rw [padded, List.mem_append, List.mem_singleton] at member
    -- the last digit, or one of those before
    rcases member with front | rfl
    · exact ih (n / base) front
    · exact isDigit_digitByte _ (Nat.lt_of_lt_of_le (Nat.mod_lt n pos) small)
