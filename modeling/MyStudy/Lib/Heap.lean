import Mathlib.Algebra.Group.Basic

/-!
# Separation

Heaps are partial maps from addresses to values. An assertion describes a heap, and `P * Q` one that
falls into two disjoint heaps that `P` and `Q` describe. With the empty heap as its unit this is a
commutative monoid, so that `ac_rfl` rearranges the parts of an assertion.
-/

namespace Separation

variable {A V : Type}

abbrev Heap (A V : Type) := A → Option V

namespace Heap

def empty : Heap A V := fun _ => none

/-- No address is in both. -/
def Disjoint (a b : Heap A V) : Prop := ∀ x, a x = none ∨ b x = none

def union (a b : Heap A V) : Heap A V := fun x => (a x).or (b x)

theorem Disjoint.symm {a b : Heap A V} (disjoint : Disjoint a b) : Disjoint b a :=
  fun x => (disjoint x).symm

theorem union_comm {a b : Heap A V} (disjoint : Disjoint a b) : union a b = union b a := by
  funext x
  rw [union, union]
  rcases disjoint x with left | right
  · rw [left, Option.none_or, Option.or_none]
  · rw [right, Option.none_or, Option.or_none]

theorem union_assoc (a b c : Heap A V) : union (union a b) c = union a (union b c) := by
  funext x
  exact Option.or_assoc

@[simp] theorem empty_union (a : Heap A V) : union empty a = a := by
  funext x
  exact Option.none_or

@[simp] theorem union_empty (a : Heap A V) : union a empty = a := by
  funext x
  exact Option.or_none

@[simp] theorem disjoint_empty (a : Heap A V) : Disjoint a empty := fun _ => .inr rfl

@[simp] theorem empty_disjoint (a : Heap A V) : Disjoint empty a := fun _ => .inl rfl

theorem union_eq_none {a b : Heap A V} {x : A} : union a b x = none ↔ a x = none ∧ b x = none :=
  Option.or_eq_none_iff

theorem union_disjoint {a b c : Heap A V} :
    Disjoint (union a b) c ↔ Disjoint a c ∧ Disjoint b c := by
  constructor
  · intro disjoint
    refine ⟨fun x => ?_, fun x => ?_⟩
    · rcases disjoint x with left | right
      · exact .inl (union_eq_none.mp left).1
      · exact .inr right
    · rcases disjoint x with left | right
      · exact .inl (union_eq_none.mp left).2
      · exact .inr right
  · rintro ⟨first, second⟩ x
    rcases first x with left | right
    · rcases second x with left' | right
      · exact .inl (union_eq_none.mpr ⟨left, left'⟩)
      · exact .inr right
    · exact .inr right

theorem disjoint_union {a b c : Heap A V} :
    Disjoint a (union b c) ↔ Disjoint a b ∧ Disjoint a c := by
  constructor
  · intro disjoint
    obtain ⟨first, second⟩ := union_disjoint.mp disjoint.symm
    exact ⟨first.symm, second.symm⟩
  · rintro ⟨first, second⟩
    exact (union_disjoint.mpr ⟨first.symm, second.symm⟩).symm

theorem union_left {a b : Heap A V} {x : A} {v : V} (found : a x = some v) :
    union a b x = some v := by
  rw [union, found, Option.some_or]

/-- A heap that is a part of another one. -/
def Within (a h : Heap A V) : Prop := ∀ x v, a x = some v → h x = some v

theorem Within.union {a b h : Heap A V} (first : Within a h) (second : Within b h) :
    Within (union a b) h := by
  intro x v found
  rcases Option.or_eq_some_iff.mp found with here | ⟨-, here⟩
  · exact first x v here
  · exact second x v here

/-- What is left of a heap without a part of it. -/
theorem Within.exists_rest {a h : Heap A V} (within : Within a h) :
    ∃ b, Disjoint a b ∧ h = Heap.union a b := by
  refine ⟨fun x => if (a x).isSome then none else h x, fun x => ?_, funext fun x => ?_⟩
  · change a x = none ∨ (if (a x).isSome then none else h x) = none
    cases a x with
    | none => exact .inl rfl
    | some v => exact .inr rfl
  · change h x = (a x).or (if (a x).isSome then none else h x)
    cases here : a x with
    | none => rfl
    | some v => exact within x v here

end Heap

/-! ### Assertions -/

def Assertion (A V : Type) := Heap A V → Prop

namespace Assertion

/-- The heap falls into two parts. -/
def sep (P Q : Assertion A V) : Assertion A V := fun h =>
  ∃ a b, Heap.Disjoint a b ∧ h = Heap.union a b ∧ P a ∧ Q b

def emp : Assertion A V := fun h => h = Heap.empty

instance : Mul (Assertion A V) := ⟨sep⟩

instance : One (Assertion A V) := ⟨emp⟩

@[ext] theorem ext {P Q : Assertion A V} (same : ∀ h, P h ↔ Q h) : P = Q :=
  funext fun h => propext (same h)

private theorem mul_comm' (P Q : Assertion A V) : P * Q = Q * P := by
  have swap (P Q : Assertion A V) (h : Heap A V) (both : (P * Q) h) : (Q * P) h := by
    obtain ⟨a, b, disjoint, rfl, p, q⟩ := both
    exact ⟨b, a, disjoint.symm, Heap.union_comm disjoint, q, p⟩
  ext h
  exact ⟨swap P Q h, swap Q P h⟩

private theorem mul_assoc' (P Q R : Assertion A V) : P * Q * R = P * (Q * R) := by
  ext h
  constructor
  · rintro ⟨_, c, disjoint, rfl, ⟨a, b, disjoint', rfl, p, q⟩, r⟩
    obtain ⟨ac, bc⟩ := Heap.union_disjoint.mp disjoint
    exact ⟨a, Heap.union b c, Heap.disjoint_union.mpr ⟨disjoint', ac⟩,
      Heap.union_assoc a b c, p, b, c,
      bc, rfl, q, r⟩
  · rintro ⟨a, _, disjoint, rfl, p, b, c, disjoint', rfl, q, r⟩
    obtain ⟨ab, ac⟩ := Heap.disjoint_union.mp disjoint
    exact ⟨Heap.union a b, c, Heap.union_disjoint.mpr ⟨ac, disjoint'⟩,
      (Heap.union_assoc a b c).symm,
      ⟨a, b, ab, rfl, p, q⟩, r⟩

private theorem one_mul' (P : Assertion A V) : 1 * P = P := by
  ext h
  constructor
  · rintro ⟨a, b, _, rfl, rfl, p⟩
    rwa [Heap.empty_union]
  · intro p
    exact ⟨Heap.empty, h, Heap.empty_disjoint h, (Heap.empty_union h).symm, rfl, p⟩

instance : CommMonoid (Assertion A V) where
  mul_assoc := mul_assoc'
  one_mul := one_mul'
  mul_one P := (mul_comm' P 1).trans (one_mul' P)
  mul_comm := mul_comm'

/-- Just this heap. -/
def exactly (h : Heap A V) : Assertion A V := fun h' => h' = h

theorem exactly_union {a b : Heap A V} (disjoint : Heap.Disjoint a b) :
    exactly (Heap.union a b) = exactly a * exactly b := by
  ext h
  constructor
  · rintro rfl
    exact ⟨a, b, disjoint, rfl, rfl, rfl⟩
  · rintro ⟨_, _, _, rfl, rfl, rfl⟩
    rfl

end Assertion

end Separation
