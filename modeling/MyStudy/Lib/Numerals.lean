import MyStudy.Lib.Bytes

/-!
# Numerals

Numbers written with the digits of any alphabet, in any base, and read back digit by digit.
-/

namespace Numerals

variable {digit : UInt8 → Option Nat} {base : Nat} {char : Nat → UInt8}

/-- The number that digits go on to from the one read so far. -/
def readFrom (digit : UInt8 → Option Nat) (base : Nat) : Nat → Bytes → Option Nat
  | v, [] => some v
  | v, b :: t => (digit b).bind fun d => readFrom digit base (v * base + d) t

def write (base : Nat) (char : Nat → UInt8) (n : Nat) : Bytes :=
  if n = 0 then [char 0] else (Nat.digits base n).reverse.map char

theorem readFrom_append (v : Nat) (s t : Bytes) :
    readFrom digit base v (s ++ t) =
      (readFrom digit base v s).bind fun w => readFrom digit base w t := by
  induction s generalizing v with
  | nil => rfl
  | cons b s ih =>
    rw [List.cons_append, readFrom, readFrom, Option.bind_assoc]
    exact congrArg _ (funext fun d => ih _)

/-- What is read only grows. -/
theorem le_of_readFrom {v n : Nat} {t : Bytes} (positive : 0 < base)
    (reads : readFrom digit base v t = some n) :
    v ≤ n := by
  induction t generalizing v with
  | nil => exact (Option.some.inj reads).le
  | cons b t ih =>
    obtain ⟨d, -, rest⟩ := Option.bind_eq_some_iff.mp reads
    have further := ih rest
    have grows := Nat.le_mul_of_pos_right v positive
    omega

theorem digits_of_readFrom {v n : Nat} {t : Bytes} (reads : readFrom digit base v t = some n) :
    ∀ b ∈ t, (digit b).isSome := by
  induction t generalizing v with
  | nil => nofun
  | cons b t ih =>
    obtain ⟨d, its, rest⟩ := Option.bind_eq_some_iff.mp reads
    exact List.forall_mem_cons.mpr ⟨by rw [its]; rfl, ih rest⟩

theorem write_ne_nil (base : Nat) (char : Nat → UInt8) (n : Nat) : write base char n ≠ [] := by
  rw [write]
  split
  · nofun
  · next nonzero => simpa [Nat.digits_eq_nil_iff_eq_zero] using nonzero

theorem length_write_le {width n : Nat} (binary : 1 < base) (positive : 0 < width)
    (small : n < base ^ width) :
    (write base char n).length ≤ width := by
  rw [write]
  split
  · exact positive
  · rw [List.length_map, List.length_reverse]
    exact (Nat.digits_length_le_iff binary n).mpr small

private theorem readFrom_reverse (inverse : ∀ d, d < base → digit (char d) = some d)
    (ds : List Nat) (small : ∀ d ∈ ds, d < base) :
    readFrom digit base 0 (ds.reverse.map char) = some (Nat.ofDigits base ds) := by
  induction ds with
  | nil => rfl
  | cons d ds ih =>
    -- the digits come with the lowest first, and a numeral ends with it
    have first := inverse d (small d List.mem_cons_self)
    have rest := ih fun e member => small e (List.mem_cons_of_mem d member)
    rw [List.reverse_cons, List.map_append, readFrom_append, rest, List.map_singleton,
      Option.bind_some, readFrom, first, Option.bind_some, readFrom, Nat.ofDigits_cons]
    simp only [Nat.mul_comm, Nat.add_comm]

/-- What is written is read back. -/
theorem readFrom_write (binary : 1 < base) (inverse : ∀ d, d < base → digit (char d) = some d)
    (n : Nat) :
    readFrom digit base 0 (write base char n) = some n := by
  rw [write]
  split
  · next zero =>
    subst zero
    rw [readFrom, inverse 0 (by omega), Option.bind_some, readFrom, Nat.zero_mul]
  · rw [readFrom_reverse inverse _ fun d digit => Nat.digits_lt_base binary digit,
      Nat.ofDigits_digits]

/-- A number of one or more digits, up to a bound. -/
structure Number (digit : UInt8 → Option Nat) (base bound : Nat) (t : Bytes) (n : Nat) : Prop where
  nonempty : t ≠ []
  reads : readFrom digit base 0 t = some n
  small : n ≤ bound

theorem Number.digits {bound n : Nat} {t : Bytes} (number : Number digit base bound t n) : ∀ b ∈ t,
    (digit b).isSome :=
  digits_of_readFrom number.reads

theorem Number.unique {bound bound' m n : Nat} {t : Bytes} (number : Number digit base bound t m)
    (other : Number digit base bound' t n) : m = n :=
  Option.some.inj (number.reads.symm.trans other.reads)

theorem number_write {bound n : Nat} (binary : 1 < base)
    (inverse : ∀ d, d < base → digit (char d) = some d) (small : n ≤ bound) :
    Number digit base bound (write base char n) n :=
  ⟨write_ne_nil base char n, readFrom_write binary inverse n, small⟩

/-- What is read of the front of a number is no more than the number. -/
theorem Number.le_of_front {bound n v : Nat} {front rest : Bytes}
    (number : Number digit base bound (front ++ rest) n) (positive : 0 < base)
    (reads : readFrom digit base 0 front = some v) : v ≤ n := by
  have all := number.reads
  rw [readFrom_append, reads, Option.bind_some] at all
  exact le_of_readFrom positive all

/-! ### Where a number ends -/

theorem split_unique {α : Type} {p : α → Prop} {s s' t t' : List α} {c c' : α} (all : ∀ b ∈ s, p b)
    (all' : ∀ b ∈ s', p b) (stop : ¬ p c) (stop' : ¬ p c') (same : s ++ c :: t = s' ++ c' :: t') :
    s = s' ∧ c = c' ∧ t = t' := by
  induction s generalizing s' with
  | nil =>
    cases s' with
    | nil => exact ⟨rfl, List.cons.inj same⟩
    | cons b s' => exact absurd ((List.cons.inj same).1 ▸ all' b List.mem_cons_self) stop
  | cons b s ih =>
    cases s' with
    | nil => exact absurd ((List.cons.inj same).1 ▸ all b List.mem_cons_self) stop'
    | cons b' s' =>
      obtain ⟨rfl, rest⟩ := List.cons.inj same
      obtain ⟨rfl, more⟩ := ih (List.forall_mem_cons.mp all).2 (List.forall_mem_cons.mp all').2 rest
      exact ⟨rfl, more⟩

/-- Where the one ends, the other one does not go on. -/
theorem no_split {α : Type} {p : α → Prop} {s s' t' : List α} {c' : α} (all : ∀ b ∈ s, p b)
    (stop' : ¬ p c') :
    s ≠ s' ++ c' :: t' := by
  rintro rfl
  exact stop' (all c' (by simp))

end Numerals
