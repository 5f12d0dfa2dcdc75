import MyStudy.Lib.ComparisonSort

/-!
# Cutting a sorted list

What a sort leaves when only the first elements of its result are kept. Which of several equal
elements these are stays open, but not which elements are equal to one that is kept.
-/

namespace StrictWeak

variable {α : Type} {lt : α → α → Bool}

theorem irrefl (weak : StrictWeak lt) (a : α) : lt a a = false := by
  by_contra self
  rw [Bool.not_eq_false] at self
  have other := weak.asymm a a self
  rw [self] at other
  cases other

end StrictWeak

/-- Neither is below the other. -/
def Equal {α : Type} (lt : α → α → Bool) (a b : α) : Prop := lt a b = false ∧ lt b a = false

namespace ComparisonSort

variable (s : ComparisonSort) {α : Type} (lt : α → α → Bool) (l : List α) (limit : Nat)

theorem take_append_drop : (s.sort lt l).take limit ++ (s.sort lt l).drop limit = s.sort lt l :=
  List.take_append_drop _ _

theorem countP_cut (condition : α → Bool) : l.countP condition =
    ((s.sort lt l).take limit).countP condition + ((s.sort lt l).drop limit).countP condition := by
  rw [← List.countP_append, take_append_drop]
  exact ((s.perm lt l).countP_eq condition).symm

variable {lt l limit}

theorem take_before_drop (weak : StrictWeak lt) {a b : α} (kept : b ∈ (s.sort lt l).take limit)
    (dropped : a ∈ (s.sort lt l).drop limit) : lt a b = false := by
  have order := s.sorted lt l weak
  rw [← take_append_drop s lt l limit] at order
  exact (List.pairwise_append.mp order).2.2 b kept a dropped

/-- An element that is kept: fewer than the limit are below it. -/
theorem below_kept (weak : StrictWeak lt) {b : α} (kept : b ∈ (s.sort lt l).take limit) :
    l.countP (fun x => lt x b) < limit := by
  have none_ : ((s.sort lt l).drop limit).countP (fun x => lt x b) = 0 := by
    rw [List.countP_eq_zero]
    intro a dropped
    rw [s.take_before_drop weak kept dropped]
    exact Bool.false_ne_true
  have notAll : ((s.sort lt l).take limit).countP (fun x => lt x b) ≠
      ((s.sort lt l).take limit).length := by
    intro all
    have self := List.countP_eq_length.mp all b kept
    rw [weak.irrefl b] at self
    cases self
  have bound := List.countP_le_length (p := fun x => lt x b) (l := (s.sort lt l).take limit)
  have short := List.length_take_le limit (s.sort lt l)
  rw [countP_cut s lt l limit, none_]
  omega

/-- An element that is dropped: more than the limit are not above it. -/
theorem upto_dropped (weak : StrictWeak lt) {a : α} (dropped : a ∈ (s.sort lt l).drop limit) :
    limit < l.countP fun x => !lt a x := by
  have all : ((s.sort lt l).take limit).countP (fun x => !lt a x) =
      ((s.sort lt l).take limit).length := by
    rw [List.countP_eq_length]
    intro b kept
    rw [s.take_before_drop weak kept dropped]
    rfl
  have one : 0 < ((s.sort lt l).drop limit).countP fun x => !lt a x := by
    rw [List.countP_pos_iff]
    exact ⟨a, dropped, by rw [weak.irrefl a]; rfl⟩
  have some_ : limit < (s.sort lt l).length := by
    by_contra whole
    rw [List.drop_of_length_le (by omega)] at dropped
    cases dropped
  rw [countP_cut s lt l limit, all, List.length_take]
  omega

/-- Fewer than the limit are below an element: one that is equal to it is kept, or better. -/
theorem exists_kept (weak : StrictWeak lt) {b : α} (member : b ∈ l)
    (few : l.countP (fun x => lt x b) < limit) (exceeds : limit ≤ l.length) :
    ∃ x ∈ (s.sort lt l).take limit, Equal lt x b := by
  rw [← s.mem_sort lt, ← take_append_drop s lt l limit, List.mem_append] at member
  rcases member with kept | dropped
  · exact ⟨b, kept, weak.irrefl b, weak.irrefl b⟩
  · -- not all of those that are kept are below it
    obtain ⟨x, kept, notBelow⟩ : ∃ x ∈ (s.sort lt l).take limit, lt x b = false := by
      by_contra none_
      push Not at none_
      have all : ((s.sort lt l).take limit).countP (fun x => lt x b) =
          ((s.sort lt l).take limit).length := by
        rw [List.countP_eq_length]
        exact fun x kept => by simpa using none_ x kept
      rw [countP_cut s lt l limit, all, List.length_take, (s.perm lt l).length_eq] at few
      omega
    exact ⟨x, kept, notBelow, s.take_before_drop weak kept dropped⟩

/-- More than the limit are not above an element: one that is equal to it is dropped. -/
theorem exists_dropped (weak : StrictWeak lt) {a : α} (member : a ∈ l)
    (many : limit < l.countP fun x => !lt a x) : ∃ y ∈ (s.sort lt l).drop limit, Equal lt y a := by
  rw [← s.mem_sort lt, ← take_append_drop s lt l limit, List.mem_append] at member
  rcases member with kept | dropped
  · -- one of those that are dropped is not above it
    obtain ⟨y, dropped, notAbove⟩ : ∃ y ∈ (s.sort lt l).drop limit, lt a y = false := by
      by_contra none_
      push Not at none_
      have nothing : ((s.sort lt l).drop limit).countP (fun x => !lt a x) = 0 := by
        rw [List.countP_eq_zero]
        intro y dropped
        simpa using none_ y dropped
      have bound := List.countP_le_length (p := fun x => !lt a x) (l := (s.sort lt l).take limit)
      have short := List.length_take_le limit (s.sort lt l)
      rw [countP_cut s lt l limit, nothing] at many
      omega
    exact ⟨y, dropped, s.take_before_drop weak kept dropped, notAbove⟩
  · exact ⟨a, dropped, weak.irrefl a, weak.irrefl a⟩

/-- A cut parts no two elements of a relation the wrong way round just when, of any two of them, the
second one is not kept or the first one is not dropped. -/
theorem cut_iff (weak : StrictWeak lt) (R : α → α → Prop)
    (respects : ∀ a a' b b', Equal lt a' a → Equal lt b' b → R a b → R a' b')
    (exceeds : limit ≤ l.length) :
    (∀ b ∈ (s.sort lt l).take limit, ∀ a ∈ (s.sort lt l).drop limit, ¬ R a b) ↔
      ∀ a ∈ l, ∀ b ∈ l, R a b → limit ≤ l.countP (fun x => lt x b) ∨
      (l.countP fun x => !lt a x) ≤ limit := by
  constructor
  · intro parted a memberA b memberB related
    by_contra both
    rw [not_or, not_le, not_le] at both
    obtain ⟨x, kept, equalB⟩ := s.exists_kept weak memberB both.1 exceeds
    obtain ⟨y, dropped, equalA⟩ := s.exists_dropped weak memberA both.2
    exact parted x kept y dropped (respects a y b x equalA equalB related)
  · intro ranks b kept a dropped related
    have memberA := (s.mem_sort lt l a).mp (List.mem_of_mem_drop dropped)
    have memberB := (s.mem_sort lt l b).mp (List.mem_of_mem_take kept)
    have below := s.below_kept weak kept
    have upto := s.upto_dropped weak dropped
    rcases ranks a memberA b memberB related with many | few
    · omega
    · omega

end ComparisonSort
