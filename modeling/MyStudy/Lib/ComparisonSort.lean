import Mathlib.Data.List.Sort

/-!
# Sorting with a comparison

What a library promises about its sort: the result is a permutation, in order if the comparison is
a strict weak order. Which of several equal elements comes first stays open, and so does the order
when the comparison is none at all.
-/

/-- `lt` is asymmetric and its complement is transitive. -/
structure StrictWeak {α : Type} (lt : α → α → Bool) : Prop where
  asymm : ∀ a b, lt a b = true → lt b a = false
  trans_not : ∀ a b c, lt a b = false → lt b c = false → lt a c = false

/-- The order of a key in a linear order. -/
theorem strictWeak_of_key {α κ : Type} [LinearOrder κ] (key : α → κ) :
    StrictWeak fun a b => decide (key a < key b) where
  asymm a b less := by
    simp only [decide_eq_true_eq, decide_eq_false_iff_not, not_lt] at less ⊢
    exact less.le
  trans_not a b c ab bc := by
    simp only [decide_eq_false_iff_not, not_lt] at ab bc ⊢
    exact bc.trans ab

/-- A sort by comparison. -/
structure ComparisonSort where
  sort : {α : Type} → (α → α → Bool) → List α → List α
  perm : ∀ {α : Type} (lt : α → α → Bool) (l : List α), (sort lt l).Perm l
  sorted : ∀ {α : Type} (lt : α → α → Bool) (l : List α), StrictWeak lt →
    (sort lt l).Pairwise fun a b => lt b a = false

namespace ComparisonSort

variable (s : ComparisonSort) {α : Type} (lt : α → α → Bool) (l : List α)

@[simp] theorem mem_sort (a : α) : a ∈ s.sort lt l ↔ a ∈ l := (s.perm lt l).mem_iff

/-- The last element of a sorted list is not below any other. -/
theorem not_lt_last (weak : StrictWeak lt) (last : α) (isLast : (s.sort lt l).getLast? = some last)
    (a : α) (member : a ∈ l) : lt last a = false := by
  obtain ⟨front, split⟩ := List.getLast?_eq_some_iff.mp isLast
  have order := s.sorted lt l weak
  rw [split] at order
  have among : a ∈ front ++ [last] := by rw [← split, mem_sort]; exact member
  -- before the last element the order speaks, at it asymmetry
  rcases List.mem_append.mp among with before | here
  · exact (List.pairwise_append.mp order).2.2 a before last (List.mem_singleton.mpr rfl)
  · rw [List.mem_singleton.mp here]
    cases self : lt last last with
    | false => rfl
    | true => exact absurd (weak.asymm last last self) (by rw [self]; decide)

/-- Insertion sort is such a sort. -/
def insertion : ComparisonSort where
  sort lt l := l.insertionSort fun a b => lt b a = false
  perm _ l := List.perm_insertionSort _ l
  sorted {α} lt l weak := by
    have trans : IsTrans α fun a b => lt b a = false :=
      ⟨fun a b c ab bc => weak.trans_not c b a bc ab⟩
    have total : Std.Total fun a b : α => lt b a = false := ⟨fun a b => by
      cases ba : lt b a with
      | false => exact Or.inl rfl
      | true => exact Or.inr (weak.asymm b a ba)⟩
    exact List.pairwise_insertionSort _ l

end ComparisonSort
