import Mathlib.Data.List.DropRight
import MyStudy.Lib.Bytes

/-!
# String helpers of the IMAP simulator

`trim`, `cnvToUpper` and `findCRLF`. The texts are byte strings.
-/
namespace SimNsim

abbrev cr : UInt8 := '\r'.toUInt8

abbrev lf : UInt8 := '\n'.toUInt8

abbrev space : UInt8 := ' '.toUInt8

/-- The characters that `trim` takes off. -/
def isTrimmed (c : UInt8) : Bool := c = space || c = '\t'.toUInt8 || c = cr || c = lf

/-- `trim`. The position from the end is unsigned and never below 0, so that it runs out of a text
of blanks: `none`. -/
def trim (str : Bytes) : Option Bytes :=
  if str = [] then some []
  else if str.all isTrimmed then none
  else some ((str.dropWhile isTrimmed).rdropWhile isTrimmed)

/-- `toupper` of the C locale. -/
def toupper (c : UInt8) : UInt8 := if 97 ≤ c && c ≤ 122 then c - 32 else c

def cnvToUpper (str : Bytes) : Bytes := str.map toupper

/-- `findCRLF`, which is never given an empty text. -/
def findCRLF : Bytes → Bool
  | a :: b :: rest => (a = cr && b = lf) || findCRLF (b :: rest)
  | _ => false

theorem findCRLF_iff (str : Bytes) : findCRLF str = true ↔ [cr, lf] <:+: str := by
  induction str with
  | nil => simp [findCRLF]
  | cons a rest ih =>
    rw [List.infix_cons_iff]
    cases rest with
    | nil => simp [findCRLF, List.prefix_cons_iff]
    | cons b rest =>
      rw [findCRLF, Bool.or_eq_true, ih, Bool.and_eq_true, decide_eq_true_eq, decide_eq_true_eq,
        List.cons_prefix_cons, List.cons_prefix_cons, @eq_comm _ a, @eq_comm _ b]
      simp only [List.nil_prefix, and_true]

/-- A text that neither starts nor ends with a blank, nor is empty. -/
structure Trimmed (str : Bytes) : Prop where
  nonempty : str ≠ []
  first : ∀ c, str.head? = some c → isTrimmed c = false
  last : ∀ c, str.getLast? = some c → isTrimmed c = false

theorem trim_padded (left str right : Bytes) (trimmed : Trimmed str)
    (blankLeft : ∀ c ∈ left, isTrimmed c = true) (blankRight : ∀ c ∈ right, isTrimmed c = true) :
    trim (left ++ str ++ right) = some str := by
  obtain ⟨a, rest, rfl⟩ := List.exists_cons_of_ne_nil trimmed.nonempty
  have first : isTrimmed a = false := trimmed.first a rfl
  have some_ : left ++ (a :: rest) ++ right ≠ [] := by simp
  have notAll : (left ++ (a :: rest) ++ right).all isTrimmed = false := by
    simp [first]
  have front : (left ++ (a :: rest) ++ right).dropWhile isTrimmed = (a :: rest) ++ right := by
    rw [List.append_assoc, List.dropWhile_append_of_pos blankLeft, List.cons_append,
      List.dropWhile_cons_of_neg (by simp [first])]
  have back : ((a :: rest) ++ right).rdropWhile isTrimmed = a :: rest := by
    rw [List.rdropWhile, List.reverse_append,
      List.dropWhile_append_of_pos fun c member => blankRight c (List.mem_reverse.mp member)]
    have kept : (a :: rest).reverse.dropWhile isTrimmed = (a :: rest).reverse := by
      obtain ⟨z, others, reversed⟩ := List.exists_cons_of_ne_nil
        (List.reverse_ne_nil_iff.mpr trimmed.nonempty)
      have last : isTrimmed z = false := trimmed.last z (by
        rw [← List.head?_reverse, reversed]
        rfl)
      rw [reversed, List.dropWhile_cons_of_neg (by simp [last])]
    rw [kept, List.reverse_reverse]
  rw [trim, if_neg some_, notAll, if_neg Bool.false_ne_true, front, back]

theorem trim_eq_none_iff (str : Bytes) :
    trim str = none ↔ str ≠ [] ∧ ∀ c ∈ str, isTrimmed c = true := by
  rw [trim]
  split
  next empty => simp [empty]
  next some_ =>
    split
    next all => simpa [some_] using all
    next other => simpa [some_] using other

end SimNsim
