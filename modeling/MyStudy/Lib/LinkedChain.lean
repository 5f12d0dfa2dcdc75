import Mathlib.Data.List.Basic
import Mathlib.Data.List.Nodup

/-!
# Chains

Nodes that lead from one to the next. `next` tells where a node leads, and is `none` where there is
no node.
-/

namespace LinkedChain

variable {A : Type}

/-- The nodes of a list, one after the other from where it begins. -/
def Linked (next : A → Option (Option A)) : Option A → List A → Prop
  | p, [] => p = none
  | p, a :: l => p = some a ∧ ∃ q, next a = some q ∧ Linked next q l

variable {next next' : A → Option (Option A)} {p q : Option A} {a b : A} {l pre post : List A}

theorem Linked.head (linked : Linked next p l) : p = l.head? := by
  cases l with
  | nil => exact linked
  | cons a l => exact linked.1

/-- Only the nodes of the list count. -/
theorem Linked.congr (linked : Linked next p l) (same : ∀ a ∈ l, next' a = next a) :
    Linked next' p l := by
  induction l generalizing p with
  | nil => exact linked
  | cons a l ih =>
    obtain ⟨here, later⟩ := List.forall_mem_cons.mp same
    obtain ⟨first, q, leads, rest⟩ := linked
    exact ⟨first, q, here.trans leads, ih rest later⟩

/-- Where a node of the list leads. -/
theorem Linked.next_eq (linked : Linked next p (pre ++ a :: post)) : next a = some post.head? := by
  induction pre generalizing p with
  | nil =>
    obtain ⟨-, q, leads, rest⟩ := linked
    rw [leads, rest.head]
  | cons b pre ih =>
    obtain ⟨-, q, -, rest⟩ := linked
    exact ih rest

/-- A node that leads to the first one is put before it. -/
theorem Linked.cons (linked : Linked next p l) (leads : next a = some p) :
    Linked next (some a) (a :: l) :=
  ⟨rfl, p, leads, linked⟩

/-- The list without its first node. -/
theorem Linked.tail (linked : Linked next p (a :: l)) (leads : next a = some q) :
    Linked next q l := by
  obtain ⟨-, q', leads', rest⟩ := linked
  rw [leads] at leads'
  obtain rfl := Option.some.inj leads'
  exact rest

variable [DecidableEq A]

/-- A node is led past. -/
theorem Linked.remove (linked : Linked next p (pre ++ b :: a :: post))
    (once : (pre ++ b :: a :: post).Nodup) (leads : next a = some q) :
    Linked (Function.update next b (some q)) p (pre ++ b :: post) := by
  induction pre generalizing p with
  | nil =>
    obtain ⟨first, r, -, rest⟩ := linked
    refine ⟨first, q, Function.update_self _ _ _, (rest.tail leads).congr fun c member => ?_⟩
    refine Function.update_of_ne ?_ _ _
    rintro rfl
    exact (List.nodup_cons.mp once).1 (List.mem_cons_of_mem a member)
  | cons c pre ih =>
    obtain ⟨first, r, leads', rest⟩ := linked
    rw [List.cons_append, List.nodup_cons] at once
    refine ⟨first, r, ?_, ih rest once.2⟩
    rw [Function.update_of_ne, leads']
    rintro rfl
    exact once.1 (by simp)

end LinkedChain
