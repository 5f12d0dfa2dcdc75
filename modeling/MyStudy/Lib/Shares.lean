import Mathlib.Algebra.Order.BigOperators.Group.Finset
import Mathlib.Algebra.BigOperators.Ring.Finset
import Mathlib.Data.Fintype.BigOperators
import Mathlib.Tactic.Ring

/-!
# Shares

What several parties have of something, in all.
-/

namespace Shares

variable {ι : Type} [Fintype ι] [DecidableEq ι] {f g : ι → Int} {p q : ι}

/-- Only one of them has more or less than before. -/
theorem sum_of_others (others : ∀ q, q ≠ p → g q = f q) : ∑ q, g q = ∑ q, f q - f p + g p := by
  rw [← Finset.add_sum_erase Finset.univ g (Finset.mem_univ p), ← Finset.add_sum_erase Finset.univ f
    (Finset.mem_univ p),
    Finset.sum_congr rfl fun q member => others q (Finset.ne_of_mem_erase member)]
  ring

/-- Two of them do not have more than all. -/
theorem add_le_sum (nonneg : ∀ q, 0 ≤ f q) (other : p ≠ q) : f p + f q ≤ ∑ r, f r := by
  rw [← Finset.sum_pair other]
  exact Finset.sum_le_sum_of_subset_of_nonneg (Finset.subset_univ _) fun r _ _ => nonneg r

omit [DecidableEq ι] in
theorem le_sum (nonneg : ∀ q, 0 ≤ f q) (p : ι) : f p ≤ ∑ r, f r :=
  Finset.single_le_sum (fun q _ => nonneg q) (Finset.mem_univ p)

end Shares
