import MyStudy.Lib.ComparisonSort

/-!
# Comparisons that are in order on a list

A library asks for a strict weak order only on the elements it is given. There any list of these
elements that is in order may be its result.
-/

/-- `lt` is a strict weak order on the elements of a list. -/
structure StrictWeakOn {α : Type} (lt : α → α → Bool) (l : List α) : Prop where
  irrefl : ∀ a ∈ l, lt a a = false
  asymm : ∀ a ∈ l, ∀ b ∈ l, lt a b = true → lt b a = false
  trans : ∀ a ∈ l, ∀ b ∈ l, ∀ c ∈ l, lt a b = true → lt b c = true → lt a c = true
  /-- Elements neither of which is below the other are a class. -/
  incomparable_trans : ∀ a ∈ l, ∀ b ∈ l, ∀ c ∈ l, lt a b = false → lt b a = false → lt b c = false →
    lt c b = false → lt a c = false

namespace StrictWeakOn

variable {α : Type} {lt : α → α → Bool} {l : List α}

theorem trans_not (weak : StrictWeakOn lt l) {a b c : α} (memberA : a ∈ l) (memberB : b ∈ l)
    (memberC : c ∈ l) (ab : lt a b = false) (bc : lt b c = false) : lt a c = false := by
  by_contra below
  rw [Bool.not_eq_false] at below
  cases ba : lt b a with
  | true =>
    -- `b` is below `a`, and so below `c`
    rw [weak.trans b memberB a memberA c memberC ba below] at bc
    cases bc
  | false =>
    cases cb : lt c b with
    | true =>
      rw [weak.trans a memberA c memberC b memberB below cb] at ab
      cases ab
    | false =>
      rw [weak.incomparable_trans a memberA b memberB c memberC ab ba bc cb] at below
      cases below

theorem of_subset (weak : StrictWeakOn lt l) {part : List α} (among : part ⊆ l) :
    StrictWeakOn lt part where
  irrefl a member := weak.irrefl a (among member)
  asymm a memberA b memberB := weak.asymm a (among memberA) b (among memberB)
  trans a memberA b memberB c memberC :=
    weak.trans a (among memberA) b (among memberB) c (among memberC)
  incomparable_trans a memberA b memberB c memberC :=
    weak.incomparable_trans a (among memberA) b (among memberB) c (among memberC)

theorem of_trans_not (asymm : ∀ a ∈ l, ∀ b ∈ l, lt a b = true → lt b a = false)
    (trans_not : ∀ a ∈ l, ∀ b ∈ l, ∀ c ∈ l, lt a b = false → lt b c = false → lt a c = false) :
    StrictWeakOn lt l where
  irrefl a member := by
    by_contra self
    rw [Bool.not_eq_false] at self
    have other := asymm a member a member self
    rw [self] at other
    cases other
  asymm := asymm
  trans a memberA b memberB c memberC ab bc := by
    by_contra none_
    rw [Bool.not_eq_true] at none_
    have other := trans_not a memberA c memberC b memberB none_ (asymm b memberB c memberC bc)
    rw [ab] at other
    cases other
  incomparable_trans a memberA b memberB c memberC ab _ bc _ :=
    trans_not a memberA b memberB c memberC ab bc

end StrictWeakOn

theorem StrictWeak.on {α : Type} {lt : α → α → Bool} (weak : StrictWeak lt) (l : List α) :
    StrictWeakOn lt l :=
  .of_trans_not (fun a _ b _ => weak.asymm a b) fun a _ b _ c _ => weak.trans_not a b c

namespace ComparisonSort

/-- The result is in order whenever the comparison is a strict weak order on the list. -/
def SortsOn (s : ComparisonSort) : Prop :=
  ∀ {α : Type} (lt : α → α → Bool) (l : List α), StrictWeakOn lt l →
    (s.sort lt l).Pairwise fun a b => lt b a = false

theorem insertion_sortsOn : insertion.SortsOn := by
  intro α lt l weak
  -- the elements of the list are a type of their own, with a strict weak order on all of it
  let below (a b : { a // a ∈ l }) : Bool := lt a b
  have whole : StrictWeak below :=
    ⟨fun a b => weak.asymm a a.2 b b.2, fun a b c => weak.trans_not a.2 b.2 c.2⟩
  have order := insertion.sorted below l.attach whole
  have same : (insertion.sort below l.attach).map Subtype.val = insertion.sort lt l := by
    have mapped := List.map_insertionSort (r := fun a b => below b a = false)
      (s := fun a b => lt b a = false) Subtype.val l.attach fun _ _ _ _ => Iff.rfl
    rw [List.attach_map_subtype_val] at mapped
    exact mapped
  rw [← same, List.pairwise_map]
  exact order

open Classical in
/-- Of two lists in order neither is ruled out. -/
theorem exists_sort {α : Type} (lt : α → α → Bool) (l result : List α) (perm : result.Perm l)
    (order : result.Pairwise fun a b => lt b a = false) :
    ∃ s : ComparisonSort, s.SortsOn ∧ s.sort lt l = result := by
  -- the insertion sort but for the given list
  let sort {β : Type} (lt' : β → β → Bool) (l' : List β) : List β :=
    if same : (⟨α, lt, l⟩ : (α : Type) × (α → α → Bool) × List α) = ⟨β, lt', l'⟩ then
      cast (congrArg (fun x => List x.1) same) result
    else insertion.sort lt' l'
  have permAll {β : Type} (lt' : β → β → Bool) (l' : List β) : (sort lt' l').Perm l' := by
    simp only [sort]
    split
    next same =>
      cases same
      exact perm
    · exact insertion.perm lt' l'
  have sortsOn {β : Type} (lt' : β → β → Bool) (l' : List β) (weak : StrictWeakOn lt' l') :
      (sort lt' l').Pairwise fun a b => lt' b a = false := by
    simp only [sort]
    split
    next same =>
      cases same
      exact order
    · exact insertion_sortsOn lt' l' weak
  exact ⟨⟨sort, permAll, fun lt' l' weak => sortsOn lt' l' (weak.on l')⟩, sortsOn, dif_pos rfl⟩

end ComparisonSort
