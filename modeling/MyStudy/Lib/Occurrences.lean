import Mathlib.Algebra.BigOperators.Group.List.Basic
import Mathlib.Algebra.Ring.Nat
import Mathlib.Data.List.Infix
import Mathlib.Data.List.Pairwise

/-!
# Occurrences that do not overlap

The count of a word in a text from the left, where an occurrence that was counted is passed as a
whole. No other choice of occurrences that do not overlap has more of them.
-/
namespace Occurrences

variable {α : Type} {word text : List α} {k : Nat} {ps : List Nat}

/-- Places of the word behind `k` letters, from the left to the right, that do not overlap. -/
structure Chosen (word text : List α) (k : Nat) (ps : List Nat) : Prop where
  spaced : ps.Pairwise fun p q => p + word.length ≤ q
  occurs : ∀ p ∈ ps, word <+: text.drop p
  after : ∀ p ∈ ps, k ≤ p

theorem Chosen.nil : Chosen word text k [] := ⟨.nil, by simp, by simp⟩

theorem Chosen.cons {p : Nat} (occurs : word <+: text.drop p)
    (chosen : Chosen word text (p + word.length) ps) (after : k ≤ p) :
    Chosen word text k (p :: ps) := by
  refine ⟨List.pairwise_cons.mpr ⟨chosen.after, chosen.spaced⟩, ?_, ?_⟩
  · rintro q (_ | ⟨_, member⟩)
    · exact occurs
    · exact chosen.occurs q member
  · rintro q (_ | ⟨_, member⟩)
    · exact after
    · have := chosen.after q member
      omega

theorem Chosen.tail {p : Nat} (chosen : Chosen word text k (p :: ps)) :
    word <+: text.drop p ∧ k ≤ p ∧ Chosen word text (p + word.length) ps := by
  obtain ⟨spaced, occurs, after⟩ := chosen
  obtain ⟨first, rest⟩ := List.pairwise_cons.mp spaced
  exact ⟨occurs p (by simp), after p (by simp), rest,
    fun q member => occurs q (by simp [member]), first⟩

theorem Chosen.mono {j : Nat} (chosen : Chosen word text k ps) (le : j ≤ k) :
    Chosen word text j ps :=
  ⟨chosen.spaced, chosen.occurs, fun p member => Nat.le_trans le (chosen.after p member)⟩

/-- Chosen places lie inside the text. -/
theorem Chosen.inside (chosen : Chosen word text k ps) (some_ : word ≠ []) {p : Nat}
    (member : p ∈ ps) :
    p + word.length ≤ text.length := by
  have short := (chosen.occurs p member).length_le
  rw [List.length_drop] at short
  have := List.length_pos_iff.mpr some_
  omega

theorem Chosen.sublist (chosen : Chosen word text k ps) {qs : List Nat} (fewer : qs.Sublist ps) :
    Chosen word text k qs :=
  ⟨chosen.spaced.sublist fewer, fun p member => chosen.occurs p (fewer.subset member),
    fun p member => chosen.after p (fewer.subset member)⟩

/-- One letter on, where the word is not. -/
theorem Chosen.skip (chosen : Chosen word text k ps) (absent : ¬ word <+: text.drop k) :
    Chosen word text (k + 1) ps := by
  refine ⟨chosen.spaced, chosen.occurs, fun p member => ?_⟩
  have after := chosen.after p member
  have other : p ≠ k := by
    rintro rfl
    exact absent (chosen.occurs p member)
  omega

theorem prefix_take (some_ : word ≠ []) (stop p : Nat) :
    word <+: (text.take stop).drop p ↔ word <+: text.drop p ∧ p + word.length ≤ stop := by
  have := List.length_pos_iff.mpr some_
  rw [List.drop_take, List.prefix_take_iff]
  exact and_congr_right fun _ => by omega

/-- Choices before a cut and behind it are one choice. -/
theorem Chosen.append (some_ : word ≠ []) {cut : Nat} {qs : List Nat}
    (front : Chosen word (text.take cut) k ps) (back : Chosen word text cut qs) (le : k ≤ cut) :
    Chosen word text k (ps ++ qs) := by
  refine ⟨List.pairwise_append.mpr ⟨front.spaced, back.spaced, fun p inFront q inBack => ?_⟩,
    fun p member => ?_,
    fun p member => ?_⟩
  · have stop := ((prefix_take some_ cut p).mp (front.occurs p inFront)).2
    exact Nat.le_trans stop (back.after q inBack)
  · rcases List.mem_append.mp member with inFront | inBack
    · exact ((prefix_take some_ cut p).mp (front.occurs p inFront)).1
    · exact back.occurs p inBack
  · rcases List.mem_append.mp member with inFront | inBack
    · exact front.after p inFront
    · exact Nat.le_trans le (back.after p inBack)

/-- A choice with nothing across a cut falls into two. -/
theorem Chosen.split (some_ : word ≠ []) {cut : Nat} (chosen : Chosen word text k ps)
    (uncut : ∀ p ∈ ps, ¬ (p < cut ∧ cut < p + word.length)) :
    Chosen word (text.take cut) k (ps.filter (· < cut)) ∧
      Chosen word text cut (ps.filter fun p => !decide (p < cut)) := by
  constructor
  · have front := chosen.sublist (List.filter_sublist (p := (· < cut)))
    refine ⟨front.spaced, fun p member => (prefix_take some_ cut p).mpr ⟨front.occurs p member, ?_⟩,
      front.after⟩
    obtain ⟨inside, before⟩ := List.mem_filter.mp member
    have := uncut p inside
    simp only [decide_eq_true_eq] at before
    omega
  · have back := chosen.sublist (List.filter_sublist (p := fun p => !decide (p < cut)))
    refine ⟨back.spaced, back.occurs, fun p member => ?_⟩
    obtain ⟨-, behind⟩ := List.mem_filter.mp member
    simp only [Bool.not_eq_true', decide_eq_false_iff_not] at behind
    omega

theorem Chosen.empty (some_ : word ≠ []) (chosen : Chosen word [] k ps) : ps = [] := by
  cases ps with
  | nil => rfl
  | cons p ps =>
    have inside := chosen.inside some_ (List.mem_cons_self ..)
    have := List.length_pos_iff.mpr some_
    rw [List.length_nil] at inside
    omega

theorem drop_eq_cons {c : α} {rest : List α} (at_ : text.drop k = c :: rest) :
    text.drop (k + 1) = rest := by
  rw [← List.drop_drop, at_, List.drop_one, List.tail_cons]

/-! ### The count -/

section

variable [DecidableEq α]

/-- The occurrences from the left, the first of them behind `skip` letters. -/
def countFrom (word : List α) : Nat → List α → Nat
  | _, [] => 0
  | 0, c :: text =>
    if word <+: c :: text then countFrom word (word.length - 1) text + 1 else countFrom word 0 text
  | skip + 1, _ :: text => countFrom word skip text

/-- The count is of occurrences that do not overlap. -/
theorem countFrom_reached (some_ : word ≠ []) (text : List α) (skip k : Nat) :
    ∃ ps, Chosen word text (k + skip) ps ∧ ps.length = countFrom word skip (text.drop k) := by
  have length := List.length_pos_iff.mpr some_
  generalize rest : text.drop k = suffix
  induction suffix generalizing skip k with
  | nil => exact ⟨[], .nil, rfl⟩
  | cons c suffix ih =>
    have next := drop_eq_cons rest
    cases skip with
    | succ skip =>
      obtain ⟨ps, chosen, count⟩ := ih skip (k + 1) next
      exact ⟨ps, chosen.mono (by omega), count⟩
    | zero =>
      rw [countFrom]
      split_ifs with occurs
      · obtain ⟨ps, chosen, count⟩ := ih (word.length - 1) (k + 1) next
        -- the occurrence is taken, and the next one starts behind it
        exact ⟨k :: ps, .cons (rest ▸ occurs) (chosen.mono (by omega)) (Nat.le_refl k),
          by rw [List.length_cons, count]⟩
      · obtain ⟨ps, chosen, count⟩ := ih 0 (k + 1) next
        exact ⟨ps, chosen.mono (by omega), count⟩

/-- No choice of occurrences that do not overlap has more of them. -/
theorem Chosen.length_le (some_ : word ≠ []) {skip : Nat}
    (chosen : Chosen word text (k + skip) ps) :
    ps.length ≤ countFrom word skip (text.drop k) := by
  have length := List.length_pos_iff.mpr some_
  generalize rest : text.drop k = suffix
  induction suffix generalizing skip k ps with
  | nil =>
    cases ps with
    | nil => exact Nat.le_refl 0
    | cons p ps =>
      have inside := chosen.inside some_ (List.mem_cons_self ..)
      have after := chosen.after p (List.mem_cons_self ..)
      -- at the end of the text there is no room for an occurrence
      have behind := List.drop_eq_nil_iff.mp rest
      omega
  | cons c suffix ih =>
    have next := drop_eq_cons rest
    cases skip with
    | succ skip => exact ih (chosen.mono (by omega)) next
    | zero =>
      rw [countFrom]
      split_ifs with occurs
      · cases ps with
        | nil => exact Nat.zero_le _
        | cons p ps =>
          -- the first one chosen ends no earlier than the one taken, so the others fit behind that,
          -- too
          obtain ⟨-, after, others⟩ := chosen.tail
          exact Nat.succ_le_succ (ih (others.mono (by omega)) next)
      · exact ih ((chosen.skip (rest ▸ occurs)).mono (by omega)) next

theorem Chosen.count_le (some_ : word ≠ []) (chosen : Chosen word text 0 ps) :
    ps.length ≤ countFrom word 0 text := by
  have := Chosen.length_le some_ (show Chosen word text (0 + 0) ps from chosen)
  rwa [List.drop_zero] at this

/-! ### A text in parts -/

/-- The word at the place lies in one of the parts of this size. -/
def Uncut (size length p : Nat) : Prop := ∀ i, ¬ (p < i * size ∧ i * size < p + length)

/-- The counts of the first parts together. -/
def partsCount (word text : List α) (size parts : Nat) : Nat :=
  ((List.range parts).map fun i => countFrom word 0 ((text.drop (i * size)).take size)).sum

theorem partsCount_succ (word text : List α) (size parts : Nat) :
    partsCount word text size (parts + 1) =
    partsCount word text size parts +
      countFrom word 0 ((text.take ((parts + 1) * size)).drop (parts * size)) := by
  rw [partsCount, List.range_succ, List.map_append, List.sum_append, List.map_singleton,
    List.sum_singleton, List.drop_take, Nat.succ_mul, Nat.add_sub_cancel_left]
  rfl

/-- The parts count occurrences that are not cut. -/
theorem partsCount_reached (some_ : word ≠ []) (text : List α) (size parts : Nat) :
    ∃ ps, Chosen word (text.take (parts * size)) 0 ps ∧ (∀ p ∈ ps, Uncut size word.length p) ∧
      ps.length = partsCount word text size parts := by
  induction parts with
  | zero => exact ⟨[], .nil, by simp, rfl⟩
  | succ parts ih =>
    obtain ⟨ps, front, uncut, count⟩ := ih
    obtain ⟨qs, back, count'⟩ :=
      countFrom_reached some_ (text.take ((parts + 1) * size)) 0 (parts * size)
    have back : Chosen word (text.take ((parts + 1) * size)) (parts * size) qs := back
    have wide : parts * size ≤ (parts + 1) * size := Nat.mul_le_mul_right size (Nat.le_succ parts)
    refine ⟨ps ++ qs, .append some_ ?_ back (Nat.zero_le _), fun p member => ?_, ?_⟩
    · rw [List.take_take, Nat.min_eq_left wide]
      exact front
    · rcases List.mem_append.mp member with inFront | inBack
      · exact uncut p inFront
      · rintro i ⟨before, behind⟩
        -- a cut behind the start of the part is its end or later
        have after := back.after p inBack
        have stop := ((prefix_take some_ _ p).mp (back.occurs p inBack)).2
        have later : parts < i := Nat.lt_of_mul_lt_mul_right (Nat.lt_of_le_of_lt after before)
        have : (parts + 1) * size ≤ i * size := Nat.mul_le_mul_right size later
        omega
    · rw [List.length_append, count, count', partsCount_succ]

/-- No choice of occurrences that are not cut has more of them than the parts together. -/
theorem Chosen.length_le_parts (some_ : word ≠ []) {size parts : Nat}
    (chosen : Chosen word (text.take (parts * size)) 0 ps)
    (uncut : ∀ p ∈ ps, Uncut size word.length p) :
    ps.length ≤ partsCount word text size parts := by
  induction parts generalizing ps with
  | zero =>
    rw [Nat.zero_mul, List.take_zero] at chosen
    rw [chosen.empty some_]
    exact Nat.zero_le _
  | succ parts ih =>
    have wide : parts * size ≤ (parts + 1) * size := Nat.mul_le_mul_right size (Nat.le_succ parts)
    -- none is cut, so each lies in the earlier parts or in the last one
    obtain ⟨front, back⟩ := chosen.split some_ fun p member => uncut p member parts
    rw [List.take_take, Nat.min_eq_left wide] at front
    have frontCount := ih front fun p member => uncut p (List.mem_of_mem_filter member)
    have backCount : (ps.filter fun p => !decide (p < parts * size)).length ≤
        countFrom word 0 ((text.take ((parts + 1) * size)).drop (parts * size)) :=
      Chosen.length_le some_ back
    rw [partsCount_succ, List.length_eq_length_filter_add (· < parts * size)]
    exact Nat.add_le_add frontCount backCount

/-- The parts together count as many as the whole text just where no more can be chosen than without
the cut ones. -/
theorem partsCount_eq_iff (some_ : word ≠ []) {size parts : Nat}
    (all : text.length ≤ parts * size) :
    partsCount word text size parts = countFrom word 0 text ↔
      ∃ ps, Chosen word text 0 ps ∧ (∀ qs, Chosen word text 0 qs → qs.length ≤ ps.length) ∧
        ∀ p ∈ ps, Uncut size word.length p := by
  have whole : text.take (parts * size) = text := List.take_of_length_le all
  obtain ⟨ps, chosen, uncut, count⟩ := partsCount_reached some_ text size parts
  rw [whole] at chosen
  constructor
  · intro same
    refine ⟨ps, chosen, fun qs other => ?_, uncut⟩
    rw [count, same]
    exact other.count_le some_
  · -- the greedy count is reached by a choice, which is no larger than this one
    rintro ⟨qs, chosen', largest, uncut'⟩
    obtain ⟨rs, greedy, total⟩ := countFrom_reached some_ text 0 0
    have most := largest rs greedy
    have less : ps.length ≤ countFrom word 0 text := chosen.count_le some_
    have parts' : qs.length ≤ partsCount word text size parts :=
      Chosen.length_le_parts some_ (by rwa [whole]) uncut'
    rw [List.drop_zero] at total
    omega

end

end Occurrences
