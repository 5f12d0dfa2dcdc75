import Mathlib.Data.List.Palindrome
import Mathlib.Data.Nat.Find
import Mathlib.Order.Basic

/-!
# Palindromes in a text

The palindromic substrings of a text, and the way they show in the text with a separator between all
its letters: every one of them, of even or odd length, has a letter or a separator as its centre
there, and as many places on both sides of it as it is long.
-/
namespace Palindromes

variable {α : Type} {text : List α} {start len : Nat}

def sub (text : List α) (start len : Nat) : List α := (text.drop start).take len

theorem sub_length (inside : start + len ≤ text.length) : (sub text start len).length = len := by
  rw [sub, List.length_take, List.length_drop]
  omega

theorem getElem?_sub (text : List α) (start len i : Nat) :
    (sub text start len)[i]? = if i < len then text[start + i]? else none := by
  rw [sub, List.getElem?_take, List.getElem?_drop]

theorem sub_infix (text : List α) (start len : Nat) : sub text start len <:+: text :=
  (List.take_prefix _ _).isInfix.trans (List.drop_suffix _ _).isInfix

theorem exists_sub {l : List α} (part : l <:+: text) :
    ∃ start, start + l.length ≤ text.length ∧ l = sub text start l.length := by
  obtain ⟨front, rest, rfl⟩ := part
  refine ⟨front.length, ?_, ?_⟩
  · rw [List.length_append, List.length_append]
    omega
  · rw [sub, List.append_assoc, List.drop_left, List.take_left]

/-- A palindromic substring: where it starts, and how long it is. -/
structure At (text : List α) (start len : Nat) : Prop where
  inside : start + len ≤ text.length
  palindrome : (sub text start len).Palindrome

/-- No palindromic substring is longer. -/
structure Longest (text : List α) (start len : Nat) : Prop extends At text start len where
  longest : ∀ s l, At text s l → l ≤ len

structure First (text : List α) (start len : Nat) : Prop extends Longest text start len where
  first : ∀ s, Longest text s len → start ≤ s

structure Last (text : List α) (start len : Nat) : Prop extends Longest text start len where
  last : ∀ s, Longest text s len → s ≤ start

theorem At.empty (text : List α) : At text 0 0 :=
  ⟨Nat.zero_le _, by rw [sub, List.take_zero]; exact .nil⟩

theorem At.singleton (below : start < text.length) : At text start 1 := by
  refine ⟨below, ?_⟩
  rw [sub, List.drop_eq_getElem_cons below, List.take_succ_cons, List.take_zero]
  exact .singleton _

theorem at_iff (text : List α) (start len : Nat) : At text start len ↔
    start + len ≤ text.length ∧ ∀ i < len, text[start + i]? = text[start + (len - 1 - i)]? := by
  constructor
  · rintro ⟨inside, palindrome⟩
    refine ⟨inside, fun i below => ?_⟩
    have same : (sub text start len).reverse[i]? = (sub text start len)[i]? := by
      rw [palindrome.reverse_eq]
    rw [List.getElem?_reverse (by rwa [sub_length inside]), sub_length inside, getElem?_sub,
      getElem?_sub, if_pos (by omega), if_pos below] at same
    exact same.symm
  · rintro ⟨inside, same⟩
    refine ⟨inside, .of_reverse_eq (List.ext_getElem? fun i => ?_)⟩
    by_cases below : i < len
    · rw [List.getElem?_reverse (by rwa [sub_length inside]), sub_length inside, getElem?_sub,
        getElem?_sub, if_pos (by omega), if_pos below, same i below]
    · rw [List.getElem?_eq_none (by rw [List.length_reverse, sub_length inside]; omega),
        getElem?_sub, if_neg below]

theorem Longest.length_eq {s l : Nat} (longest : Longest text start len)
    (other : Longest text s l) : l = len :=
  Nat.le_antisymm (longest.longest s l other.toAt) (other.longest start len longest.toAt)

/-- Among the longest palindromes of a text there are a first and a last one. -/
theorem exists_first_last (text : List α) :
    ∃ first last len, First text first len ∧ Last text last len := by
  classical
  have bounded (s l : Nat) (found : At text s l) : l ≤ text.length := by
    have := found.inside
    omega
  -- the empty text is a palindrome at its start, so there is a longest one
  let len := Nat.findGreatest (fun l => ∃ s, At text s l) text.length
  obtain ⟨s, found⟩ : ∃ s, At text s len :=
    Nat.findGreatest_spec (P := fun l => ∃ s, At text s l) (Nat.zero_le _) ⟨0, .empty text⟩
  have longest : Longest text s len :=
    ⟨found, fun s' l other => Nat.le_findGreatest (bounded s' l other) ⟨s', other⟩⟩
  have any : ∃ s, Longest text s len := ⟨s, longest⟩
  have below (s : Nat) (longest : Longest text s len) : s ≤ text.length := by
    have := longest.inside
    omega
  refine ⟨Nat.find any, Nat.findGreatest (fun s => Longest text s len) text.length, len,
    ⟨Nat.find_spec any, fun s other => Nat.find_min' any other⟩,
    ⟨Nat.findGreatest_spec (P := fun s => Longest text s len) (below s longest) longest,
      fun s other => Nat.le_findGreatest (below s other) other⟩⟩

/-! ### Around a centre -/

/-- As many places on both sides of the centre mirror each other. -/
structure Arms (text : List α) (centre arm : Nat) : Prop where
  left : arm ≤ centre
  right : centre + arm < text.length
  mirror : ∀ j ≤ arm, text[centre - j]? = text[centre + j]?

theorem Arms.zero {centre : Nat} (inside : centre < text.length) : Arms text centre 0 :=
  ⟨Nat.zero_le _, inside, fun j le => by rw [Nat.le_zero.mp le]; rfl⟩

/-- The two sides, one of them read backwards. -/
theorem arms_iff {centre arm : Nat} (left : arm ≤ centre) (right : centre + arm < text.length) :
    Arms text centre arm ↔ sub text (centre - arm) arm = (sub text (centre + 1) arm).reverse := by
  have long : (sub text (centre + 1) arm).length = arm := sub_length (by omega)
  -- a letter of the right side, read backwards, is at the mirrored place of the left one
  have backwards (i : Nat) (below : i < arm) :
      (sub text (centre + 1) arm).reverse[i]? = text[centre + (arm - i)]? := by
    rw [List.getElem?_reverse (by omega), long, getElem?_sub, if_pos (by omega)]
    congr 1
    omega
  constructor
  · intro arms
    refine List.ext_getElem? fun i => ?_
    by_cases below : i < arm
    · rw [backwards i below, getElem?_sub, if_pos below, ← arms.mirror (arm - i) (by omega)]
      congr 1
      omega
    · rw [getElem?_sub, if_neg below, List.getElem?_eq_none (by rw [List.length_reverse]; omega)]
  · intro same
    refine ⟨left, right, fun j le => ?_⟩
    rcases Nat.eq_zero_or_pos j with rfl | pos
    · rfl
    have at_ : (sub text (centre - arm) arm)[arm - j]? =
        (sub text (centre + 1) arm).reverse[arm - j]? := by
      rw [same]
    rw [backwards _ (by omega), getElem?_sub, if_pos (by omega)] at at_
    rw [show centre - j = centre - arm + (arm - j) by omega, at_]
    congr 1
    omega

/-! ### The text with separators -/

variable {sep : α}

/-- The separator in front of the text and behind each of its letters. -/
def interleave (sep : α) (text : List α) : List α := sep :: text.flatMap fun c => [c, sep]

theorem interleave_cons (sep c : α) (text : List α) :
    interleave sep (c :: text) = sep :: c :: interleave sep text :=
  rfl

theorem interleave_length (sep : α) (text : List α) :
    (interleave sep text).length = 2 * text.length + 1 := by
  induction text with
  | nil => rfl
  | cons c text ih =>
    rw [interleave_cons, List.length_cons, List.length_cons, ih, List.length_cons]
    omega

theorem interleave_even (sep : α) (text : List α) (i : Nat) (inside : i ≤ text.length) :
    (interleave sep text)[2 * i]? = some sep := by
  induction text generalizing i with
  | nil => rw [Nat.le_zero.mp inside]; rfl
  | cons c text ih =>
    cases i with
    | zero => rfl
    | succ i =>
      rw [interleave_cons, show 2 * (i + 1) = 2 * i + 1 + 1 by omega, List.getElem?_cons_succ,
        List.getElem?_cons_succ]
      exact ih i (Nat.le_of_succ_le_succ inside)

theorem interleave_odd (sep : α) (text : List α) (i : Nat) :
    (interleave sep text)[2 * i + 1]? = text[i]? := by
  induction text generalizing i with
  | nil => rfl
  | cons c text ih =>
    cases i with
    | zero => rfl
    | succ i =>
      rw [interleave_cons, show 2 * (i + 1) + 1 = 2 * i + 1 + 1 + 1 by omega,
        List.getElem?_cons_succ, List.getElem?_cons_succ, List.getElem?_cons_succ]
      exact ih i

theorem drop_interleave (sep : α) (text : List α) (i : Nat) (inside : i ≤ text.length) :
    (interleave sep text).drop (2 * i) = interleave sep (text.drop i) := by
  induction text generalizing i with
  | nil => rw [Nat.le_zero.mp inside]; rfl
  | cons c text ih =>
    cases i with
    | zero => rfl
    | succ i =>
      rw [interleave_cons, show 2 * (i + 1) = 2 * i + 1 + 1 by omega, List.drop_succ_cons,
        List.drop_succ_cons]
      exact ih i (Nat.le_of_succ_le_succ inside)

theorem take_interleave (sep : α) (text : List α) (i : Nat) :
    (interleave sep text).take (2 * i + 1) = interleave sep (text.take i) := by
  induction text generalizing i with
  | nil => rw [List.take_nil, List.take_of_length_le (by rw [interleave_length]; simp)]
  | cons c text ih =>
    cases i with
    | zero => rfl
    | succ i =>
      rw [interleave_cons, show 2 * (i + 1) + 1 = 2 * i + 1 + 1 + 1 by omega, List.take_succ_cons,
        List.take_succ_cons, ih i]
      rfl

theorem sub_interleave (sep : α) (inside : start ≤ text.length) :
    sub (interleave sep text) (2 * start) (2 * len + 1) = interleave sep (sub text start len) := by
  rw [sub, drop_interleave sep text start inside, take_interleave]
  rfl

/-- Without the separators it is the text again. -/
theorem filter_interleave [DecidableEq α] (clean : sep ∉ text) :
    (interleave sep text).filter (· ≠ sep) = text := by
  induction text with
  | nil => simp [interleave]
  | cons c text ih =>
    rw [List.mem_cons, not_or] at clean
    have kept : c ≠ sep := Ne.symm clean.1
    rw [interleave_cons, List.filter_cons_of_neg (by simp),
      List.filter_cons_of_pos (by simpa using kept), ih clean.2]

/-- The arms around the middle of a palindrome are as long as it is. -/
theorem arms_even (sep : α) :
    Arms (interleave sep text) (2 * start + len) len ↔ At text start len := by
  rw [at_iff]
  constructor
  · rintro ⟨-, right, mirror⟩
    rw [interleave_length] at right
    refine ⟨by omega, fun i below => ?_⟩
    -- the letter is at an odd place, left of the middle or right of it
    rw [← interleave_odd sep text (start + i), ← interleave_odd sep text (start + (len - 1 - i))]
    rcases Nat.lt_or_ge (2 * i + 1) len with leftHalf | rightHalf
    · have same := mirror (len - (2 * i + 1)) (by omega)
      rw [show 2 * start + len - (len - (2 * i + 1)) = 2 * (start + i) + 1 by omega,
        show 2 * start + len + (len - (2 * i + 1)) = 2 * (start + (len - 1 - i)) + 1 by omega]
        at same
      exact same
    · have same := mirror (2 * i + 1 - len) (by omega)
      rw [show 2 * start + len - (2 * i + 1 - len) = 2 * (start + (len - 1 - i)) + 1 by omega,
        show 2 * start + len + (2 * i + 1 - len) = 2 * (start + i) + 1 by omega] at same
      exact same.symm
  · rintro ⟨inside, same⟩
    refine ⟨by omega, by rw [interleave_length]; omega, fun j le => ?_⟩
    rcases Nat.mod_two_eq_zero_or_one (len - j) with even | odd
    · obtain ⟨i, rfl⟩ : ∃ i, j + 2 * i = len := ⟨(len - j) / 2, by omega⟩
      rw [show 2 * start + (j + 2 * i) - j = 2 * (start + i) by omega,
        show 2 * start + (j + 2 * i) + j = 2 * (start + i + j) by omega,
        interleave_even sep text _ (by omega), interleave_even sep text _ (by omega)]
    · obtain ⟨i, split⟩ : ∃ i, j + (2 * i + 1) = len := ⟨(len - j) / 2, by omega⟩
      have letters := same i (by omega)
      rw [show 2 * start + len - j = 2 * (start + i) + 1 by omega,
        show 2 * start + len + j = 2 * (start + (len - 1 - i)) + 1 by omega, interleave_odd,
        interleave_odd, letters]

/-- Arms that end in letters go on to the separators. -/
theorem Arms.odd {arm : Nat} (arms : Arms (interleave sep text) (2 * start + 1 + arm) arm) :
    Arms (interleave sep text) (2 * start + 1 + arm) (arm + 1) := by
  obtain ⟨-, right, mirror⟩ := arms
  rw [interleave_length] at right
  refine ⟨by omega, by rw [interleave_length]; omega, fun j le => ?_⟩
  rcases Nat.lt_or_ge arm j with last | within
  · obtain rfl : j = arm + 1 := by omega
    rw [show 2 * start + 1 + arm - (arm + 1) = 2 * start by omega,
      show 2 * start + 1 + arm + (arm + 1) = 2 * (start + 1 + arm) by omega,
      interleave_even sep text _ (by omega), interleave_even sep text _ (by omega)]
  · exact mirror j within

end Palindromes
