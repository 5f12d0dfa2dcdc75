import Mathlib.Data.List.Basic

/-!
# Programs with state and exceptions

What holds after a run of a program that keeps a state and may throw: of the value and the state
it returns, or of the state it throws in. The rules follow the program.
-/

namespace Program

variable {ε σ α β : Type}

/-- After a run from `s`, `Q` holds of the value and the state, or `E` of the exception and the
state. -/
def Ensures (m : EStateM ε σ α) (s : σ) (Q : α → σ → Prop) (E : ε → σ → Prop) : Prop :=
  match m s with
  | .ok a s' => Q a s'
  | .error e s' => E e s'

/-- The state a run ends in, whether it returns or throws. -/
def finalState (m : EStateM ε σ α) (s : σ) : σ :=
  match m s with
  | .ok _ s' => s'
  | .error _ s' => s'

theorem Ensures.mono {m : EStateM ε σ α} {s : σ} {Q Q' : α → σ → Prop} {E E' : ε → σ → Prop}
    (run : Ensures m s Q E) (value : ∀ a s', Q a s' → Q' a s') (thrown : ∀ e s', E e s' → E' e s') :
    Ensures m s Q' E' := by
  rw [Ensures] at run ⊢
  cases result : m s with
  | ok a s' => rw [result] at run; exact value a s' run
  | error e s' => rw [result] at run; exact thrown e s' run

/-- What holds after every run holds of the state it ends in. -/
theorem Ensures.finalState {m : EStateM ε σ α} {s : σ} {P : σ → Prop}
    (run : Ensures m s (fun _ => P) (fun _ => P)) : P (finalState m s) := by
  rw [Ensures] at run
  rw [Program.finalState]
  cases result : m s with
  | ok a s' => rw [result] at run; exact run
  | error e s' => rw [result] at run; exact run

theorem ensures_pure (a : α) (s : σ) (Q : α → σ → Prop) (E : ε → σ → Prop) :
    Ensures (pure a) s Q E ↔ Q a s := Iff.rfl

theorem ensures_bind (m : EStateM ε σ α) (f : α → EStateM ε σ β) (s : σ) (Q : β → σ → Prop)
    (E : ε → σ → Prop) :
    Ensures (m >>= f) s Q E ↔ Ensures m s (fun a s' => Ensures (f a) s' Q E) E := by
  simp only [Ensures, bind, EStateM.bind]
  cases m s <;> rfl

theorem Ensures.bind {m : EStateM ε σ α} {f : α → EStateM ε σ β} {s : σ} {Q : β → σ → Prop}
    {E : ε → σ → Prop} (R : α → σ → Prop) (first : Ensures m s R E)
    (second : ∀ a s', R a s' → Ensures (f a) s' Q E) : Ensures (m >>= f) s Q E :=
  (ensures_bind m f s Q E).mpr (first.mono second fun _ _ thrown => thrown)

/-- Two facts about the same run hold together. -/
theorem Ensures.and {m : EStateM ε σ α} {s : σ} {Q Q' : α → σ → Prop} {E E' : ε → σ → Prop}
    (run : Ensures m s Q E) (run' : Ensures m s Q' E') :
    Ensures m s (fun a s' => Q a s' ∧ Q' a s') (fun e s' => E e s' ∧ E' e s') := by
  rw [Ensures] at run run' ⊢
  cases result : m s with
  | ok a s' => rw [result] at run run'; exact ⟨run, run'⟩
  | error e s' => rw [result] at run run'; exact ⟨run, run'⟩

/-- A loop keeps an invariant over the elements it is done with. -/
theorem Ensures.forM {f : α → EStateM ε σ PUnit} {E : ε → σ → Prop} (I : List α → σ → Prop)
    (l : List α) (s : σ) (start : I [] s)
    (step : ∀ done a s', a ∈ l → I done s' → Ensures (f a) s' (fun _ => I (done ++ [a])) E) :
    Ensures (l.forM f) s (fun _ => I l) E := by
  -- the list is cut into what the loop is done with and what is left of it
  suffices general : ∀ done rest, (∀ a ∈ rest, a ∈ l) → ∀ s', I done s' →
      Ensures (rest.forM f) s' (fun _ => I (done ++ rest)) E from
    general [] l (fun _ member => member) s start
  intro done rest
  induction rest generalizing done with
  | nil =>
    intro _ s' here
    rw [List.append_nil]
    exact here
  | cons a rest ih =>
    intro among s' here
    rw [List.forM]
    apply Ensures.bind (fun _ => I (done ++ [a])) (step done a s' (among a (by simp)) here)
    intro _ s'' there
    have later :=
      ih (done ++ [a]) (fun b member => among b (List.mem_cons_of_mem a member)) s'' there
    rwa [List.append_assoc, List.singleton_append] at later

end Program
