/-!
# Folds that can fail

A fold in `Except` succeeds when each of its steps would, as long as no step looks at what the
earlier ones computed to decide that.
-/

namespace FailingFold

variable {ε α β : Type} (f : β → α → Except ε β)

/-- Whether a step succeeds depends on its element only. -/
theorem foldlM_succeeds_iff (ok : α → Prop) (step : ∀ b a, (∃ b', f b a = .ok b') ↔ ok a)
    (l : List α) (b : β) : (∃ b', l.foldlM f b = .ok b') ↔ ∀ a ∈ l, ok a := by
  induction l generalizing b with
  | nil => simp [pure, Except.pure]
  | cons a l ih =>
    -- what the first step computed does not matter to the others
    rw [List.foldlM_cons, List.forall_mem_cons, ← step b a]
    cases first : f b a with
    | error e => simp [bind, Except.bind]
    | ok b' => simp [bind, Except.bind, ih b']

/-- A fold that succeeds has collected what each of its steps adds. -/
theorem foldlM_collects (has : β → Prop) (adds : α → Prop)
    (step : ∀ b a b', f b a = .ok b' → (has b' ↔ has b ∨ adds a)) (l : List α) (b b' : β)
    (done : l.foldlM f b = .ok b') : has b' ↔ has b ∨ ∃ a ∈ l, adds a := by
  induction l generalizing b with
  | nil =>
    obtain rfl := Except.ok.inj done
    simp
  | cons a l ih =>
    rw [List.foldlM_cons] at done
    cases first : f b a with
    | error e =>
      rw [first] at done
      cases done
    | ok between =>
      rw [first] at done
      rw [ih between done, step b a between first, or_assoc]
      simp

/-- Every error of the fold is one of a step. -/
theorem foldlM_error (expected : ε → Prop) (step : ∀ b a e, f b a = .error e → expected e)
    (l : List α) (b : β) (e : ε) (failed : l.foldlM f b = .error e) : expected e := by
  induction l generalizing b with
  | nil => simp [pure, Except.pure] at failed
  | cons a l ih =>
    rw [List.foldlM_cons] at failed
    cases first : f b a with
    | error e' =>
      rw [first] at failed
      exact Except.error.inj failed ▸ step b a e' first
    | ok b' =>
      rw [first] at failed
      exact ih b' failed

end FailingFold
