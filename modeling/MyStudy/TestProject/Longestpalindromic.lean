import MyStudy.Lib.Bytes
import MyStudy.Lib.Palindromes

/-!
# The longest palindromic substring

`longestpalindromic.py` has two searches for it. The first puts a `#` between all the letters of the
text, visits the places of that text as centres, from the middle outwards to both sides in turn, and
keeps how far the arms of the best centre reach; the second tries every start from the left and
every end from the right.
-/
namespace TestProject

open Palindromes

/-! ### Slices -/

/-- A bound of a slice read forwards: counted from the end where it is negative, and cut to the
text. -/
def clip (len : Nat) (i : Int) : Int := if i < 0 then max (i + len) 0 else min i len

/-- A bound of a slice with the step `-1`: the places it lies on, and the one before the first. -/
def clipBack (len : Nat) (i : Int) : Int := if i < 0 then max (i + len) (-1) else min i (len - 1)

/-- `text[i:j]` -/
def slice (text : Bytes) (i j : Int) : Bytes :=
  let start := clip text.length i
  let stop := clip text.length j
  (text.drop start.toNat).take (stop - start).toNat

/-- `text[i:j:-1]` -/
def sliceBack (text : Bytes) (i j : Int) : Bytes :=
  let start := clipBack text.length i
  let stop := clipBack text.length j
  ((text.drop (stop + 1).toNat).take (start - stop).toNat).reverse

theorem slice_eq (text : Bytes) (i j : Nat) (le : i ≤ j) (inside : j ≤ text.length) :
    slice text i j = sub text i (j - i) := by
  rw [slice, sub, clip, clip]
  congr 1
  · omega
  · congr 1
    omega

theorem sliceBack_eq (text : Bytes) (i j : Nat) (le : j ≤ i) (inside : i < text.length) :
    sliceBack text i j = (sub text (j + 1) (i - j)).reverse := by
  rw [sliceBack, sub, clipBack, clipBack]
  congr 2
  · omega
  · congr 1
    omega

/-! ### The first search -/

/-- The loop over the lengths at one centre, from `chkStartLen` down. A length that is at least
`maxLen` is not negative. -/
def getPalindrmoicMaxLen (text : Bytes) (pos chkStartLen maxPos : Int) (maxLen : Nat) : Int × Nat :=
  if chkStartLen ≥ maxLen then
    if slice text (pos - chkStartLen) pos =
      sliceBack text (pos + chkStartLen) pos then (pos, chkStartLen.toNat)
    else getPalindrmoicMaxLen text pos (chkStartLen - 1) maxPos maxLen
  else (maxPos, maxLen)
termination_by (chkStartLen + 1).toNat

/-- `round(index / 2.0)`: halves are rounded up. -/
def roundHalf (index : Nat) : Int := (index + 1) / 2

/-- `pn[index % 2]` -/
def pn (index : Nat) : Int := if index % 2 = 0 then -1 else 1

/-- The loop over the centres. -/
def visit (text : Bytes) (pos chkStartLen maxPos : Int) (maxLen index : Nat) : Int × Nat :=
  if pos ≥ 0 then
    let best := getPalindrmoicMaxLen text pos chkStartLen maxPos maxLen
    let offset := pn (index + 1) * roundHalf (index + 1)
    let pos := (text.length / 2 : Nat) + offset
    let chkStartLen := (text.length / 2 : Nat) - roundHalf (index + 1)
    if chkStartLen < best.2 then best else visit text pos chkStartLen best.1 best.2 (index + 1)
  else (maxPos, maxLen)
termination_by text.length + 1 - index
decreasing_by
  rename_i below
  have : (0 : Int) ≤ best.2 := Int.natCast_nonneg _
  simp only [roundHalf, chkStartLen] at below
  omega

/-- `newText`: a `#` in front of the text and behind each of its letters. -/
def hashed (text : Bytes) : Bytes :=
  text.foldl (fun newText eachChar => newText ++ [eachChar, 35]) [35]

def longestPalindromic (text : Bytes) : Bytes :=
  let text := hashed text
  let pos := text.length / 2
  let (maxPos, maxLen) := visit text pos pos 1 0 0
  let newText := slice text (maxPos - maxLen) (maxPos + maxLen + 1)
  newText.filter (· ≠ 35)

/-! ### The second search -/

/-- The loop at one start, over the ends from the right. -/
def popLoop (palindrome tmp : Bytes) : Bytes :=
  if tmp.length > 1 then
    if tmp = tmp.reverse ∧ tmp.length >
      palindrome.length then tmp else popLoop palindrome tmp.dropLast
  else palindrome
termination_by tmp.length
decreasing_by
  rw [List.length_dropLast]
  omega

/-- An empty text has no `text[0]`. -/
def longestPalindromic2 (text : Bytes) : Option Bytes :=
  text.head?.map fun c =>
    (List.range text.length).foldl (fun palindrome i => popLoop palindrome (text.drop i)) [c]

/-! ### The centres -/

/-- The centre of the visit with this number, and how far it is from the nearer end of the text. -/
def place (n index : Nat) : Nat :=
  if index % 2 = 0 then n - (index + 1) / 2 else n + (index + 1) / 2

theorem coe_place (n index : Nat) (near : (index + 1) / 2 ≤ n) :
    (n : Int) + pn index * roundHalf index = (place n index : Nat) := by
  rw [pn, roundHalf, place]
  split <;> omega

theorem coe_border (n index : Nat) (near : (index + 1) / 2 ≤ n) :
    (n : Int) - roundHalf index = (n - (index + 1) / 2 : Nat) := by
  rw [roundHalf]
  omega

variable {text : Bytes} {n index b maxLen : Nat}

theorem place_inside (near : (index + 1) / 2 ≤ n) :
    n - (index + 1) / 2 ≤ place n index ∧ place n index + (n - (index + 1) / 2) ≤ 2 * n := by
  rw [place]
  split <;> omega

/-- No arm is longer than the way to the nearer end. -/
theorem arm_le_border (size : text.length = 2 * n + 1) {k : Nat}
    (arms : Arms text (place n index) k) :
    k ≤ n - (index + 1) / 2 := by
  have left := arms.left
  have right := arms.right
  rw [place] at left right
  split at left <;> rename_i parity <;> simp only [parity, if_true, if_false] at right <;> omega

/-- Every place of the text is visited. -/
theorem exists_place {p : Nat} (inside : p ≤ 2 * n) :
    ∃ index ≤ 2 * n, (index + 1) / 2 ≤ n ∧ place n index = p := by
  rcases Nat.le_total p n with le | ge
  · refine ⟨2 * (n - p), by omega, by omega, ?_⟩
    rw [place, if_pos (by omega)]
    omega
  · rcases Nat.eq_or_lt_of_le ge with rfl | gt
    · exact ⟨0, by omega, by omega, by simp [place]⟩
    · refine ⟨2 * (p - n) - 1, by omega, by omega, ?_⟩
      rw [place, if_neg (by omega)]
      omega

/-! ### What the first search finds -/

theorem slice_arms {p k : Nat} (left : k ≤ p) (right : p + k < text.length) :
    slice text ((p : Int) - k) p = sliceBack text (p + k) p ↔ Arms text p k := by
  rw [arms_iff left right, show (p : Int) - k = (p - k : Nat) by omega,
    show (p : Int) + k = (p + k : Nat) by omega, slice_eq text (p - k) p (by omega) (by omega),
    sliceBack_eq text (p + k) p (by omega) right]
  rw [show p - (p - k) = k by omega, show p + k - p = k by omega]

/-- The longest arms of a centre, unless none of them is as long as `maxLen`. -/
theorem getPalindrmoicMaxLen_spec (text : Bytes) (p c maxLen : Nat) (maxPos : Int) (left : c ≤ p)
    (right : p + c < text.length) :
    (∃ k, maxLen ≤ k ∧ Arms text p k ∧ (∀ j ≤ c, Arms text p j → j ≤ k) ∧
      getPalindrmoicMaxLen text p c maxPos maxLen = (↑p, k)) ∨
    ((∀ j ≤ c, Arms text p j → j < maxLen) ∧ getPalindrmoicMaxLen text p c maxPos maxLen =
      (maxPos, maxLen)) := by
  induction c with
  | zero =>
    rw [getPalindrmoicMaxLen]
    have arms : Arms text p 0 := .zero right
    rcases Nat.eq_zero_or_pos maxLen with rfl | pos
    · refine .inl ⟨0, Nat.le_refl 0, arms, fun j le _ => le, ?_⟩
      rw [if_pos (by omega), if_pos ((slice_arms left right).mpr arms)]
      rfl
    · exact .inr ⟨fun j le _ => by omega, by rw [if_neg (by omega)]⟩
  | succ c ih =>
    rw [getPalindrmoicMaxLen]
    by_cases enough : maxLen ≤ c + 1
    · rw [if_pos (by omega)]
      by_cases arms : Arms text p (c + 1)
      · refine .inl ⟨c + 1, enough, arms, fun j le _ => le, ?_⟩
        rw [if_pos ((slice_arms left right).mpr arms)]
        rfl
      · rw [if_neg (fun same => arms ((slice_arms left right).mp same)),
          show ((c + 1 : Nat) : Int) - 1 = (c : Nat) by omega]
        -- the length that was tried has no arms, so nothing changes for the lengths below it
        have below {j : Nat} (le : j ≤ c + 1) (found : Arms text p j) : j ≤ c := by
          rcases Nat.eq_or_lt_of_le le with rfl | lt
          · exact absurd found arms
          · omega
        rcases ih (by omega) (by omega) with ⟨k, least, found, greatest, run⟩ | ⟨none, run⟩
        · exact .inl ⟨k, least, found, fun j le arms' => greatest j (below le arms') arms', run⟩
        · exact .inr ⟨fun j le arms' => none j (below le arms') arms', run⟩
    · exact .inr ⟨fun j le _ => by omega, by rw [if_neg (by omega)]⟩

/-- After some visits: the best arms, and the last of the visits that found arms of that length. -/
structure Best (text : Bytes) (n index b maxLen : Nat) : Prop where
  visited : b < index
  arms : Arms text (place n b) maxLen
  others : ∀ i < index, ∀ k, Arms text (place n i) k → k < maxLen ∨ (k = maxLen ∧ i ≤ b)

/-- One visit. -/
theorem visit_step (size : text.length = 2 * n + 1) (near : (index + 1) / 2 ≤ n) {maxPos : Int}
    (before : (index = 0 ∧ maxLen = 0) ∨ ∃ b, maxPos = place n b ∧ Best text n index b maxLen) :
    ∃ b k, getPalindrmoicMaxLen text (place n index) (n - (index + 1) / 2 : Nat) maxPos maxLen =
      (↑(place n b), k) ∧
      Best text n (index + 1) b k := by
  have inside := place_inside near
  rcases getPalindrmoicMaxLen_spec text (place n index) (n - (index + 1) / 2) maxLen maxPos inside.1
    (by omega) with ⟨k, least, arms, greatest, run⟩ | ⟨none, run⟩
  · refine ⟨index, k, run, Nat.lt_succ_self index, arms, fun i visited j found => ?_⟩
    -- the arms found here are longer than those before, and the longest here
    have le : j ≤ k := by
      rcases Nat.eq_or_lt_of_le (Nat.le_of_lt_succ visited) with rfl | old
      · exact greatest j (arm_le_border size found) found
      · rcases before with ⟨rfl, -⟩ | ⟨b, -, best⟩
        · omega
        · have := best.others i old j found
          omega
    omega
  · rcases before with ⟨rfl, rfl⟩ | ⟨b, rfl, best⟩
    · -- arms of length 0 are found at the first centre, whatever it is
      have := none 0 (Nat.zero_le _) (.zero (by omega))
      omega
    · refine ⟨b, maxLen, run, Nat.lt_succ_of_lt best.visited, best.arms,
        fun i visited j found => ?_⟩
      rcases Nat.eq_or_lt_of_le (Nat.le_of_lt_succ visited) with rfl | old
      · exact .inl (none j (arm_le_border size found) found)
      · exact best.others i old j found

/-- The centres that are left out are too near to an end. -/
theorem Best.stop (size : text.length = 2 * n + 1) (best : Best text n index b maxLen)
    (visited : index ≤ 2 * n + 1) (short : n < (index + 1) / 2 + maxLen) :
    Best text n (2 * n + 1) b maxLen := by
  refine ⟨Nat.lt_of_lt_of_le best.visited visited, best.arms, fun i below k found => ?_⟩
  rcases Nat.lt_or_ge i index with old | new
  · exact best.others i old k found
  · have := arm_le_border size found
    omega

theorem visit_next (size : text.length = 2 * n + 1) {maxPos : Int} {k : Nat}
    (run : getPalindrmoicMaxLen text (place n index) (n - (index + 1) / 2 : Nat) maxPos maxLen =
      (↑(place n b), k)) :
    visit text (place n index) (n - (index + 1) / 2 : Nat) maxPos maxLen index =
      if n < (index + 2) / 2 + k then (↑(place n b), k)
      else visit text (place n (index + 1)) (n - (index + 2) / 2 : Nat) (place n b) k
        (index + 1) := by
  rw [visit, if_pos (Int.natCast_nonneg _), run, show text.length / 2 = n by omega]
  dsimp only
  by_cases short : n < (index + 2) / 2 + k
  · have out : (n : Int) - roundHalf (index + 1) < k := by
      rw [roundHalf]
      omega
    rw [if_pos short, if_pos out]
  · have near : (index + 1 + 1) / 2 ≤ n := by omega
    rw [coe_place n (index + 1) near, coe_border n (index + 1) near, if_neg short,
      if_neg (by omega)]

theorem visit_best (size : text.length = 2 * n + 1) (near : (index + 1) / 2 ≤ n) {maxPos : Int}
    (before : (index = 0 ∧ maxLen = 0) ∨ ∃ b, maxPos = place n b ∧ Best text n index b maxLen) :
    ∃ b k, visit text (place n index) (n - (index + 1) / 2 : Nat) maxPos maxLen index =
      (↑(place n b), k) ∧
      Best text n (2 * n + 1) b k := by
  -- over the centres that are still to come
  obtain ⟨left, total⟩ : ∃ left, index + left = 2 * n := ⟨2 * n - index, by omega⟩
  induction left generalizing index maxPos maxLen with
  | zero =>
    obtain ⟨b, k, run, best⟩ := visit_step size near before
    have short : n < (index + 1 + 1) / 2 + k := by omega
    exact ⟨b, k, by rw [visit_next size run, if_pos short], best.stop size (by omega) short⟩
  | succ left ih =>
    obtain ⟨b, k, run, best⟩ := visit_step size near before
    rw [visit_next size run]
    by_cases short : n < (index + 2) / 2 + k
    · exact ⟨b, k, by rw [if_pos short], best.stop size (by omega) short⟩
    · rw [if_neg short]
      exact ih (by omega) (.inr ⟨b, rfl, best⟩) (by omega)

/-! ### The text -/

theorem hashed_eq (text : Bytes) : hashed text = interleave 35 text := by
  have each (text newText : Bytes) :
      text.foldl (fun newText eachChar => newText ++ [eachChar, 35]) newText =
        newText ++ text.flatMap fun c => [c, 35] := by
    induction text generalizing newText with
    | nil => rw [List.foldl_nil, List.flatMap_nil, List.append_nil]
    | cons c text ih => rw [List.foldl_cons, ih, List.flatMap_cons, List.append_assoc]
  exact each text [35]

/-- The arms are those of a palindrome as long as they are. -/
theorem Best.longest (best : Best (interleave 35 text) text.length (2 * text.length + 1) b maxLen) :
    ∃ start, place text.length b = 2 * start + maxLen ∧ Longest text start maxLen := by
  have size := interleave_length 35 text
  have left := best.arms.left
  -- no arms are longer
  have greatest {p k : Nat} (arms : Arms (interleave 35 text) p k) : k ≤ maxLen := by
    have inside := arms.right
    rw [size] at inside
    obtain ⟨i, visited, -, rfl⟩ := exists_place (n := text.length) (p := p) (by omega)
    have := best.others i (by omega) k arms
    omega
  have even : (place text.length b - maxLen) % 2 = 0 := by
    by_contra odd
    have split : place text.length b = 2 * ((place text.length b - maxLen) / 2) + 1 +
        maxLen := by omega
    have arms := best.arms
    rw [split] at arms
    have := greatest arms.odd
    omega
  refine ⟨(place text.length b - maxLen) / 2, by omega, ⟨(arms_even 35).mp ?_, fun s l found => ?_⟩⟩
  · rw [show 2 * ((place text.length b - maxLen) / 2) + maxLen = place text.length b by omega]
    exact best.arms
  · exact greatest ((arms_even 35).mpr found)

/-- The longest palindrome whose centre was visited last. -/
theorem longestPalindromic_eq (text : Bytes) (plain : 35 ∉ text) : ∃ b start len,
    longestPalindromic text = sub text start len ∧ place text.length b = 2 * start + len ∧
      Best (interleave 35 text) text.length (2 * text.length + 1) b len ∧
      Longest text start len := by
  have size := interleave_length 35 text
  have start : (0 = 0 ∧ 0 = 0) ∨ ∃ b, (1 : Int) = place text.length b ∧
      Best (interleave 35 text) text.length 0 b 0 :=
    .inl ⟨rfl, rfl⟩
  obtain ⟨b, len, run, best⟩ := visit_best size (Nat.zero_le _) start
  obtain ⟨start, centre, longest⟩ := best.longest
  refine ⟨b, start, len, ?_, centre, best, longest⟩
  have inside := longest.inside
  have middle : (interleave 35 text).length / 2 = text.length := by omega
  have first : place text.length 0 = text.length := by simp [place]
  rw [first, show text.length - (0 + 1) / 2 = text.length by omega] at run
  -- the slice is from the left end of the arms to the right one, hashes and all
  have bounds : slice (interleave 35 text) ((place text.length b : Int) - len)
    (place text.length b + len + 1) =
      sub (interleave 35 text) (2 * start) (2 * len + 1) := by
    rw [centre, show ((2 * start + len : Nat) : Int) - len = (2 * start : Nat) by omega,
      show ((2 * start + len : Nat) : Int) + len + 1 = (2 * start + (2 * len + 1) : Nat) by omega,
      slice_eq _ _ _ (by omega) (by omega), Nat.add_sub_cancel_left]
  rw [longestPalindromic, hashed_eq, middle]
  dsimp only
  rw [run]
  dsimp only
  rw [bounds, sub_interleave 35 (by omega)]
  exact filter_interleave fun hash => plain (List.mem_of_mem_drop (List.mem_of_mem_take hash))

/-- The answer is a palindrome of the text, and none is longer. -/
theorem longestPalindromic_longest (text : Bytes) (plain : 35 ∉ text) :
    (longestPalindromic text).Palindrome ∧ longestPalindromic text <:+: text ∧
      ∀ other : Bytes, other.Palindrome → other <:+: text →
      other.length ≤ (longestPalindromic text).length := by
  obtain ⟨b, start, len, run, -, -, longest⟩ := longestPalindromic_eq text plain
  rw [run, sub_length longest.inside]
  refine ⟨longest.palindrome, sub_infix text start len, fun other palindrome part => ?_⟩
  obtain ⟨s, inside, same⟩ := exists_sub part
  exact longest.longest s _ ⟨inside, same ▸ palindrome⟩

theorem longestPalindromic_longest_abacada :
    (longestPalindromic (ascii "abacada")).Palindrome ∧
      longestPalindromic (ascii "abacada") <:+: ascii "abacada" ∧
      ∀ other : Bytes, other.Palindrome → other <:+: ascii "abacada" →
        other.length ≤ (longestPalindromic (ascii "abacada")).length :=
  longestPalindromic_longest (ascii "abacada") (by decide)

/-! ### Several longest palindromes -/

/-- The first search takes the first of them or the last, whichever is farther from the middle. -/
theorem longestPalindromic_farthest (plain : 35 ∉ text) {first last len : Nat}
    (isFirst : First text first len) (isLast : Last text last len) : longestPalindromic text =
      if first + len + last ≤ text.length then sub text first len else sub text last len := by
  obtain ⟨b, start, len', run, centre, best, longest⟩ := longestPalindromic_eq text plain
  obtain rfl : len' = len := isFirst.toLongest.length_eq longest
  have after := isFirst.first start longest
  have before := isLast.last start longest
  -- centres as good as the best one came before it, or are the best one
  have visited {s : Nat} (found : Longest text s len') :
      ∃ i ≤ b, (i + 1) / 2 ≤ text.length ∧ place text.length i = 2 * s + len' := by
    have inside := found.inside
    obtain ⟨i, below, near, at_⟩ := exists_place (n := text.length) (p := 2 * s + len') (by omega)
    have arms : Arms (interleave 35 text) (place text.length i) len' :=
      at_ ▸ (arms_even 35).mpr found.toAt
    have := best.others i (by omega) len' arms
    exact ⟨i, by omega, near, at_⟩
  obtain ⟨i, iVisited, iNear, iPlace⟩ := visited isFirst.toLongest
  obtain ⟨j, jVisited, jNear, jPlace⟩ := visited isLast.toLongest
  have bVisited := best.visited
  rw [place] at centre iPlace jPlace
  rw [run]
  -- the visits go away from the middle, to the right and to the left in turn, and the last one wins
  split_ifs with room
  · have : start = first := by
      split at centre <;> split at iPlace <;> omega
    rw [this]
  · have : start = last := by
      split at centre <;> split at jPlace <;> omega
    rw [this]

/-! ### What the second search finds -/

theorem popLoop_spec (palindrome t : Bytes) (some_ : 0 < palindrome.length) (k : Nat)
    (inside : k ≤ t.length) :
    (∃ j, popLoop palindrome (t.take k) = t.take j ∧ palindrome.length < j ∧ j ≤ k ∧
      (t.take j).Palindrome ∧
      ∀ i ≤ k, (t.take i).Palindrome → i ≤ j) ∨
    (popLoop palindrome (t.take k) = palindrome ∧ ∀ i ≤ k, (t.take i).Palindrome →
      i ≤ palindrome.length) := by
  induction k with
  | zero =>
    refine .inr ⟨?_, fun i le _ => by omega⟩
    rw [popLoop, if_neg (by simp)]
  | succ k ih =>
    have long : (t.take (k + 1)).length = k + 1 := by rw [List.length_take]; omega
    rw [popLoop, long]
    by_cases more : k + 1 > 1
    · rw [if_pos more]
      by_cases found : t.take (k + 1) = (t.take (k + 1)).reverse ∧ k + 1 > palindrome.length
      · rw [if_pos found]
        exact .inl ⟨k + 1, rfl, found.2, Nat.le_refl _, .of_reverse_eq found.1.symm,
          fun i le _ => le⟩
      · rw [if_neg found, show (t.take (k + 1)).dropLast = t.take k by
          rw [List.dropLast_eq_take, long, List.take_take]; simp]
        -- the end that was tried is no new palindrome
        have below {i : Nat} (le : i ≤ k + 1) (mirrored : (t.take i).Palindrome) :
            i ≤ k ∨ (i = k + 1 ∧ i ≤ palindrome.length) := by
          rcases Nat.eq_or_lt_of_le le with rfl | lt
          · refine .inr ⟨rfl, ?_⟩
            by_contra longer
            exact found ⟨mirrored.reverse_eq.symm, by omega⟩
          · exact .inl (by omega)
        rcases ih (by omega) with ⟨j, run, longer, le, mirrored, greatest⟩ | ⟨run, none⟩
        · refine .inl ⟨j, run, longer, by omega, mirrored, fun i le' mirrored' => ?_⟩
          rcases below le' mirrored' with le'' | ⟨-, le''⟩
          · exact greatest i le'' mirrored'
          · omega
        · refine .inr ⟨run, fun i le' mirrored' => ?_⟩
          rcases below le' mirrored' with le'' | ⟨-, le''⟩
          · exact none i le'' mirrored'
          · exact le''
    · rw [if_neg more]
      exact .inr ⟨rfl, fun i le _ => by omega⟩

/-- After the starts below `i`: the longest palindrome at one of them, at the first start it has. -/
structure Leftmost (text : Bytes) (i s l : Nat) : Prop extends At text s l where
  letter : 0 < l
  longest : ∀ s' < i, ∀ l', At text s' l' → l' ≤ l
  first : ∀ s', At text s' l → s ≤ s'

theorem Leftmost.next {i s l : Nat} (before : Leftmost text i s l) (below : i < text.length) :
    ∃ s' l', popLoop (sub text s l) (text.drop i) = sub text s' l' ∧
      Leftmost text (i + 1) s' l' := by
  have long := sub_length before.inside
  have rest : (text.drop i).length = text.length - i := List.length_drop
  have spec :=
    popLoop_spec (sub text s l) (text.drop i) (by rw [long]; exact before.letter) _ (Nat.le_refl _)
  rw [List.take_length, long, rest] at spec
  have prefix_ {l' : Nat} (found : At text i l') : l' ≤ text.length - i ∧
      ((text.drop i).take l').Palindrome := by
    have := found.inside
    exact ⟨by omega, found.palindrome⟩
  -- a longer palindrome at the next place takes the place of the one before
  rcases spec with ⟨j, run, longer, le, mirrored, greatest⟩ | ⟨run, none⟩
  · refine ⟨i, j, run, ⟨by omega, mirrored⟩,
      by omega, fun s' old l' found => ?_, fun s' found => ?_⟩
    · rcases Nat.eq_or_lt_of_le (Nat.le_of_lt_succ old) with rfl | older
      · exact greatest l' (prefix_ found).1 (prefix_ found).2
      · have := before.longest s' older l' found
        omega
    · by_contra earlier
      have := before.longest s' (by omega) j found
      omega
  · refine ⟨s, l, run, before.toAt, before.letter, fun s' old l' found => ?_, before.first⟩
    rcases Nat.eq_or_lt_of_le (Nat.le_of_lt_succ old) with rfl | older
    · exact none l' (prefix_ found).1 (prefix_ found).2
    · exact before.longest s' older l' found

theorem foldl_popLoop (c : UInt8) (rest : Bytes) (i : Nat) (le : i ≤ (c :: rest).length) :
    ∃ s l, (List.range i).foldl (fun palindrome i => popLoop palindrome ((c :: rest).drop i)) [c] =
      sub (c :: rest) s l ∧ Leftmost (c :: rest) i s l := by
  induction i with
  | zero =>
    exact ⟨0, 1, rfl, .singleton (Nat.succ_pos _), Nat.one_pos,
    by omega, fun s' _ => Nat.zero_le s'⟩
  | succ i ih =>
    obtain ⟨s, l, run, before⟩ := ih (by omega)
    rw [List.range_succ, List.foldl_append, List.foldl_cons, List.foldl_nil, run]
    exact before.next (by omega)

/-- The second search takes the first of the longest palindromes. -/
theorem longestPalindromic2_first (nonempty : text ≠ []) {first len : Nat}
    (isFirst : First text first len) :
    longestPalindromic2 text = some (sub text first len) := by
  obtain ⟨c, rest, rfl⟩ := List.exists_cons_of_ne_nil nonempty
  obtain ⟨s, l, run, leftmost⟩ := foldl_popLoop c rest _ (Nat.le_refl _)
  have longest : Longest (c :: rest) s l := by
    refine ⟨leftmost.toAt, fun s' l' found => ?_⟩
    have inside := found.inside
    have letter := leftmost.letter
    rcases Nat.lt_or_ge s' (c :: rest).length with below | behind
    · exact leftmost.longest s' below l' found
    · omega
  obtain rfl : l = len := isFirst.toLongest.length_eq longest
  obtain rfl : s = first :=
    Nat.le_antisymm (leftmost.first first isFirst.toAt) (isFirst.first s longest)
  rw [longestPalindromic2, List.head?_cons, Option.map_some, run]

/-- Both searches give the first of the longest palindromes just where it is the one the first
search takes: where there is no more text in front of it than behind the last of them, or where the
two are the same string. -/
theorem longestPalindromic_first_iff (text : Bytes) (nonempty : text ≠ []) (plain : 35 ∉ text) :
    (∃ first len, First text first len ∧ longestPalindromic text = sub text first len ∧
        longestPalindromic2 text = some (sub text first len)) ↔
      ∃ first last len, First text first len ∧ Last text last len ∧
        (first + len + last ≤ text.length ∨ sub text last len = sub text first len) := by
  constructor
  · rintro ⟨first, len, isFirst, run, -⟩
    obtain ⟨first', last, len', isFirst', isLast⟩ := exists_first_last text
    obtain rfl : len' = len := isFirst.toLongest.length_eq isFirst'.toLongest
    refine ⟨first, last, len', isFirst, isLast, ?_⟩
    rw [longestPalindromic_farthest plain isFirst isLast] at run
    split_ifs at run with room
    · exact .inl room
    · exact .inr run
  · rintro ⟨first, last, len, isFirst, isLast, near⟩
    refine ⟨first, len, isFirst, ?_, longestPalindromic2_first nonempty isFirst⟩
    rw [longestPalindromic_farthest plain isFirst isLast]
    split_ifs with room
    · rfl
    · exact near.resolve_left room

theorem longestPalindromic_first_iff_abacada :
    (∃ first len, First (ascii "abacada") first len ∧
        longestPalindromic (ascii "abacada") = sub (ascii "abacada") first len ∧
        longestPalindromic2 (ascii "abacada") = some (sub (ascii "abacada") first len)) ↔
      ∃ first last len, First (ascii "abacada") first len ∧ Last (ascii "abacada") last len ∧
        (first + len + last ≤ (ascii "abacada").length ∨
          sub (ascii "abacada") last len = sub (ascii "abacada") first len) :=
  longestPalindromic_first_iff (ascii "abacada") (by decide) (by decide)

/-- In `caabb` the last of the two longest palindromes is farther from the middle. -/
theorem longestPalindromic_differ : longestPalindromic (ascii "caabb") = ascii "bb" ∧
    longestPalindromic2 (ascii "caabb") = some (ascii "aa") := by
  decide +kernel

end TestProject
