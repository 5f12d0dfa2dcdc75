import Mathlib.Data.Finset.Basic
import Mathlib.Data.List.Nodup
import Mathlib.Data.List.Pairwise
import Mathlib.Data.Set.Basic
import Mathlib.Logic.Relation

/-!
# Connected components

The components of an undirected graph as a list of disjoint sets, and what becomes of them when an
edge is added: the sets of its two ends, if there are any, are replaced by one set with both ends in
it.
-/
namespace Components

variable {α : Type} {edges : List (α × α)} {a b x y : α}

/-! ### Paths -/

/-- There is a path of edges between the two. -/
def Joined (edges : List (α × α)) : α → α → Prop :=
  Relation.ReflTransGen fun x y => (x, y) ∈ edges ∨ (y, x) ∈ edges

/-- An end of an edge. -/
def Occurs (edges : List (α × α)) (x : α) : Prop := ∃ e ∈ edges, x = e.1 ∨ x = e.2

theorem Joined.symm (joined : Joined edges x y) : Joined edges y x := by
  induction joined with
  | refl => exact .refl
  | tail _ edge ih => exact .head edge.symm ih

theorem Joined.mono (joined : Joined edges x y) (e : α × α) : Joined (edges ++ [e]) x y := by
  have wider (x y : α) (edge : (x, y) ∈ edges ∨ (y, x) ∈ edges) :
      (x, y) ∈ edges ++ [e] ∨ (y, x) ∈ edges ++ [e] :=
    edge.imp (List.mem_append_left _) (List.mem_append_left _)
  exact Relation.ReflTransGen.mono wider x y joined

/-- A path leads to what occurs. -/
theorem Joined.occurs (joined : Joined edges x y) : x = y ∨ (Occurs edges x ∧ Occurs edges y) := by
  induction joined with
  | refl => exact .inl rfl
  | @tail y z _ edge ih =>
    refine .inr ?_
    have ends : Occurs edges y ∧ Occurs edges z := by
      rcases edge with edge | edge
      · exact ⟨⟨_, edge, .inl rfl⟩, ⟨_, edge, .inr rfl⟩⟩
      · exact ⟨⟨_, edge, .inr rfl⟩, ⟨_, edge, .inl rfl⟩⟩
    rcases ih with rfl | ⟨first, -⟩
    · exact ends
    · exact ⟨first, ends.2⟩

theorem joined_new : Joined (edges ++ [(a, b)]) a b := .single (.inl (by simp))

/-- A path with the new edge in it passes from the one end to the other. -/
theorem joined_concat : Joined (edges ++ [(a, b)]) x y ↔
    Joined edges x y ∨ ((Joined edges x a ∨ Joined edges x b) ∧
      (Joined edges y a ∨ Joined edges y b)) := by
  constructor
  · intro joined
    induction joined with
    | refl => exact .inl .refl
    | @tail y z _ edge ih =>
      -- the last edge is an old one, or the new one in either direction
      have known : Joined edges y z ∨ (y = a ∧ z = b) ∨ (y = b ∧ z = a) := by
        simp only [List.mem_append, List.mem_singleton, Prod.mk.injEq] at edge
        rcases edge with (old | new) | (old | ⟨rfl, rfl⟩)
        · exact .inl (.single (.inl old))
        · exact .inr (.inl new)
        · exact .inl (.single (.inr old))
        · exact .inr (.inr ⟨rfl, rfl⟩)
      rcases known with old | ⟨rfl, rfl⟩ | ⟨rfl, rfl⟩
      · rcases ih with before | ⟨front, back⟩
        · exact .inl (before.trans old)
        · exact .inr ⟨front, back.imp old.symm.trans old.symm.trans⟩
      · refine .inr ⟨?_, .inr .refl⟩
        exact ih.elim .inl And.left
      · refine .inr ⟨?_, .inl .refl⟩
        exact ih.elim .inr And.left
  · -- both ends of the new edge are joined in the new graph
    have ends {z : α} (near : Joined edges z a ∨ Joined edges z b) :
        Joined (edges ++ [(a, b)]) z a := by
      rcases near with toA | toB
      · exact toA.mono _
      · exact (toB.mono _).trans joined_new.symm
    rintro (old | ⟨front, back⟩)
    · exact old.mono _
    · exact (ends front).trans (ends back).symm

theorem occurs_concat : Occurs (edges ++ [(a, b)]) x ↔ Occurs edges x ∨ x = a ∨ x = b := by
  simp only [Occurs, List.mem_append, List.mem_singleton, or_and_right, exists_or, exists_eq_left]

/-! ### Sets -/

variable {sets sets' : List (Finset α)}

/-- The two are in one of the sets. -/
def Together (sets : List (Finset α)) (x y : α) : Prop := ∃ s ∈ sets, x ∈ s ∧ y ∈ s

/-- Sets that have nothing in common, none of them empty. -/
structure Apart (sets : List (Finset α)) : Prop where
  disjoint : sets.Pairwise Disjoint
  nonempty : ∀ s ∈ sets, s.Nonempty

theorem Apart.nil : Apart ([] : List (Finset α)) := ⟨.nil, by simp⟩

theorem Apart.eq (apart : Apart sets) {s t : Finset α} (memberS : s ∈ sets) (memberT : t ∈ sets)
    (inS : x ∈ s) (inT : x ∈ t) : s = t := by
  by_contra other
  exact Finset.disjoint_left.mp (apart.disjoint.forall memberS memberT other) inS inT

theorem Apart.nodup (apart : Apart sets) : sets.Nodup := by
  refine apart.disjoint.imp_of_mem fun {s t} memberS _ disjoint same => ?_
  obtain ⟨x, inS⟩ := apart.nonempty s memberS
  exact Finset.disjoint_left.mp disjoint inS (same ▸ inS)

/-- An end of the new edge, or with it in a set. -/
def Near (sets : List (Finset α)) (a x : α) : Prop := x = a ∨ Together sets x a

/-- The sets of the two are one set, and the others are left. -/
structure Merged (sets : List (Finset α)) (a b : α) (sets' : List (Finset α)) : Prop where
  disjoint : sets'.Pairwise Disjoint
  members : ∃ merged : Finset α, (∀ x, x ∈ merged ↔ Near sets a x ∨ Near sets b x) ∧
    ∀ t, t ∈ sets' ↔ t = merged ∨ (t ∈ sets ∧ a ∉ t ∧ b ∉ t)

/-- It is enough to find the sets with one of the two in them, and to put what is in these into one
set. -/
theorem Merged.of_perm (apart : Apart sets) {olds rest : List (Finset α)} {s : Finset α}
    (before : sets.Perm (olds ++ rest)) (after : sets'.Perm (s :: rest))
    (touched : ∀ t ∈ olds, a ∈ t ∨ b ∈ t) (foundA : ∀ t ∈ sets, a ∈ t → t ∈ olds)
    (foundB : ∀ t ∈ sets, b ∈ t → t ∈ olds) (all : ∀ x, x ∈ s ↔ x = a ∨ x = b ∨ ∃ t ∈ olds, x ∈ t) :
    Merged sets a b sets' := by
  have parted : (olds ++ rest).Pairwise Disjoint := before.pairwise apart.disjoint (Disjoint.symm ·)
  obtain ⟨-, restParted, across⟩ := List.pairwise_append.mp parted
  have other {t : Finset α} (left : t ∈ rest) {x : α} (inT : x ∈ t) {u : Finset α}
      (old : u ∈ olds) : x ∉ u :=
    fun inU => Finset.disjoint_left.mp (across u old t left) inU inT
  have member {t : Finset α} : t ∈ sets ↔ t ∈ olds ∨ t ∈ rest := by
    rw [before.mem_iff, List.mem_append]
  -- the other sets have neither of the two
  have clean {t : Finset α} (left : t ∈ rest) : a ∉ t ∧ b ∉ t := by
    have old := member.mpr (.inr left)
    exact ⟨fun inA => other left inA (foundA t old inA) inA,
      fun inB => other left inB (foundB t old inB) inB⟩
  refine ⟨after.symm.pairwise (List.pairwise_cons.mpr ⟨fun t left => ?_, restParted⟩)
    (Disjoint.symm ·), s,
    fun x => ?_, fun t => ?_⟩
  · refine Finset.disjoint_left.mpr fun x inS inT => ?_
    rcases (all x).mp inS with rfl | rfl | ⟨u, old, inU⟩
    · exact (clean left).1 inT
    · exact (clean left).2 inT
    · exact other left inT old inU
  · rw [all]
    constructor
    · rintro (rfl | rfl | ⟨t, old, inX⟩)
      · exact .inl (.inl rfl)
      · exact .inr (.inl rfl)
      · rcases touched t old with inA | inB
        · exact .inl (.inr ⟨t, member.mpr (.inl old), inX, inA⟩)
        · exact .inr (.inr ⟨t, member.mpr (.inl old), inX, inB⟩)
    · rintro ((rfl | ⟨t, old, inX, inA⟩) | (rfl | ⟨t, old, inX, inB⟩))
      · exact .inl rfl
      · exact .inr (.inr ⟨t, foundA t old inA, inX⟩)
      · exact .inr (.inl rfl)
      · exact .inr (.inr ⟨t, foundB t old inB, inX⟩)
  · rw [after.mem_iff, List.mem_cons, member]
    constructor
    · rintro (rfl | left)
      · exact .inl rfl
      · exact .inr ⟨.inr left, clean left⟩
    · rintro (rfl | ⟨old | left, withoutA, withoutB⟩)
      · exact .inl rfl
      · exact absurd (touched t old) (not_or.mpr ⟨withoutA, withoutB⟩)
      · exact .inr left

theorem Merged.symm (merged : Merged sets a b sets') : Merged sets b a sets' := by
  obtain ⟨disjoint, s, near, members⟩ := merged
  refine ⟨disjoint, s, fun x => ?_, fun t => ?_⟩
  · rw [near, or_comm]
  · rw [members, and_comm (a := a ∉ t)]

theorem Merged.apart (merged : Merged sets a b sets') (apart : Apart sets) : Apart sets' := by
  obtain ⟨disjoint, s, near, members⟩ := merged
  refine ⟨disjoint, fun t member => ?_⟩
  rcases (members t).mp member with rfl | ⟨old, -⟩
  · exact ⟨a, (near a).mpr (.inl (.inl rfl))⟩
  · exact apart.nonempty t old

theorem Merged.together (merged : Merged sets a b sets') (x y : α) : Together sets' x y ↔
    Together sets x y ∨ ((Near sets a x ∨ Near sets b x) ∧ (Near sets a y ∨ Near sets b y)) := by
  obtain ⟨-, s, near, members⟩ := merged
  constructor
  · rintro ⟨t, member, inX, inY⟩
    rcases (members t).mp member with rfl | ⟨old, -⟩
    · exact .inr ⟨(near x).mp inX, (near y).mp inY⟩
    · exact .inl ⟨t, old, inX, inY⟩
  · rintro (⟨t, old, inX, inY⟩ | ⟨nearX, nearY⟩)
    · -- a set with one of the two is merged, any other one stays as it is
      by_cases inA : a ∈ t
      · exact ⟨s, (members s).mpr (.inl rfl), (near x).mpr (.inl (.inr ⟨t, old, inX, inA⟩)),
          (near y).mpr (.inl (.inr ⟨t, old, inY, inA⟩))⟩
      by_cases inB : b ∈ t
      · exact ⟨s, (members s).mpr (.inl rfl), (near x).mpr (.inr (.inr ⟨t, old, inX, inB⟩)),
          (near y).mpr (.inr (.inr ⟨t, old, inY, inB⟩))⟩
      exact ⟨t, (members t).mpr (.inr ⟨old, inA, inB⟩), inX, inY⟩
    · exact ⟨s, (members s).mpr (.inl rfl), (near x).mpr nearX, (near y).mpr nearY⟩

/-! ### The components of a graph -/

/-- The sets are the components of the graph of these edges. -/
structure Of (edges : List (α × α)) (sets : List (Finset α)) : Prop where
  apart : Apart sets
  together : ∀ x y, Together sets x y ↔ Occurs edges x ∧ Joined edges x y

theorem Of.nil : Of ([] : List (α × α)) [] :=
  ⟨.nil, fun x y => iff_of_false (by rintro ⟨_, ⟨⟩, _⟩) (by rintro ⟨⟨_, ⟨⟩, _⟩, _⟩)⟩

theorem Of.near (of : Of edges sets) (a x : α) : Near sets a x ↔ Joined edges x a := by
  rw [Near, of.together]
  constructor
  · rintro (rfl | ⟨-, joined⟩)
    · exact .refl
    · exact joined
  · intro joined
    exact joined.occurs.imp_right fun both => ⟨both.1, joined⟩

theorem Of.concat (of : Of edges sets) (merged : Merged sets a b sets') :
    Of (edges ++ [(a, b)]) sets' := by
  refine ⟨merged.apart of.apart, fun x y => ?_⟩
  rw [merged.together, of.together, of.near, of.near, of.near, of.near, occurs_concat,
    joined_concat]
  constructor
  · rintro (⟨occurs, joined⟩ | ⟨nearX, nearY⟩)
    · exact ⟨.inl occurs, .inl joined⟩
    · refine ⟨?_, .inr ⟨nearX, nearY⟩⟩
      rcases nearX with joined | joined
      · exact joined.occurs.elim (.inr ∘ .inl) (.inl ∘ And.left)
      · exact joined.occurs.elim (.inr ∘ .inr) (.inl ∘ And.left)
  · rintro ⟨occurs, joined | near⟩
    · rcases occurs with old | rfl | rfl
      · exact .inl ⟨old, joined⟩
      · exact .inr ⟨.inl .refl, .inl joined.symm⟩
      · exact .inr ⟨.inr .refl, .inr joined.symm⟩
    · exact .inr near

end Components
