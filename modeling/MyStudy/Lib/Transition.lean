import Mathlib.Data.List.Basic

/-!
# Labelled steps

A system takes labelled steps; a label says who moves and what the environment answers. A run
follows a list of labels for as long as they can be followed.
-/

namespace Transition

variable {σ α : Type} (step : σ → α → Option σ)

/-- What holds in every state of a run. -/
def Throughout (P : σ → Prop) : σ → List α → Prop
  | s, [] => P s
  | s, a :: labels =>
    P s ∧ match step s a with
      | none => True
      | some t => Throughout P t labels

/-- What holds of every step a run takes, in the state before it. -/
def EachStep (C : σ → α → Prop) : σ → List α → Prop
  | _, [] => True
  | s, a :: labels =>
    match step s a with
    | none => True
    | some t => C s a ∧ EachStep C t labels

/-- What holds of every step a run tries, in the state before it; the last one may be impossible. -/
def EachTry (C : σ → α → Prop) : σ → List α → Prop
  | _, [] => True
  | s, a :: labels =>
    C s a ∧ match step s a with
      | none => True
      | some t => EachTry C t labels

instance decidableThroughout (P : σ → Prop) [DecidablePred P] :
    ∀ s labels, Decidable (Throughout step P s labels)
  | s, [] => inferInstanceAs (Decidable (P s))
  | s, a :: labels =>
    have : Decidable (match step s a with
        | none => True
        | some t => Throughout step P t labels) :=
      match step s a with
      | none => inferInstanceAs (Decidable True)
      | some t => decidableThroughout P t labels
    inferInstanceAs (Decidable (P s ∧ _))

instance decidableEachStep (C : σ → α → Prop) [∀ s a, Decidable (C s a)] :
    ∀ s labels, Decidable (EachStep step C s labels)
  | _, [] => inferInstanceAs (Decidable True)
  | s, a :: labels =>
    match next : step s a with
    | none => isTrue (by simp [EachStep, next])
    | some t =>
      have := decidableEachStep C t labels
      decidable_of_iff (C s a ∧ EachStep step C t labels) (by simp [EachStep, next])

variable {step}

/-- An invariant that the steps of a run keep holds in all its states. -/
theorem throughout_of_invariant {I P : σ → Prop} {C : σ → α → Prop}
    (keeps : ∀ s a t, I s → C s a → step s a = some t → I t) (gives : ∀ s, I s → P s)
    (s : σ) (labels : List α) (start : I s) (each : EachStep step C s labels) :
    Throughout step P s labels := by
  induction labels generalizing s with
  | nil => exact gives s start
  | cons a labels ih =>
    refine ⟨gives s start, ?_⟩
    rw [EachStep] at each
    cases next : step s a with
    | none => trivial
    | some t =>
      rw [next] at each
      exact ih t (keeps s a t start each.1 next) each.2

/-- Where the states can only stay good through steps that meet a condition, the runs through good
states are the runs of such steps. -/
theorem throughout_iff_eachStep {I P : σ → Prop} {C : σ → α → Prop}
    (keeps : ∀ s a t, I s → C s a → step s a = some t → I t) (gives : ∀ s, I s → P s)
    (needs : ∀ s a t, I s → step s a = some t → P t → C s a) (s : σ) (labels : List α)
    (start : I s) : Throughout step P s labels ↔ EachStep step C s labels := by
  constructor
  · intro good
    induction labels generalizing s with
    | nil => trivial
    | cons a labels ih =>
      rw [EachStep]
      have later := good.2
      cases next : step s a with
      | none => trivial
      | some t =>
        rw [next] at later
        have here : P t := by
          cases labels with
          | nil => exact later
          | cons b labels => exact later.1
        -- the good state behind the step shows its condition, and that keeps the invariant
        have met := needs s a t start next here
        exact ⟨met, ih t (keeps s a t start met next) later⟩
  · exact throughout_of_invariant keeps gives s labels start

theorem eachTry_congr {C D : σ → α → Prop} (same : ∀ s a, C s a ↔ D s a) (s : σ)
    (labels : List α) : EachTry step C s labels ↔ EachTry step D s labels := by
  induction labels generalizing s with
  | nil => exact Iff.rfl
  | cons a labels ih =>
    rw [EachTry, EachTry, same s a]
    cases step s a with
    | none => exact Iff.rfl
    | some t => exact and_congr_right fun _ => ih t

theorem EachTry.next {C : σ → α → Prop} {s t : σ} {a : α} {labels : List α}
    (each : EachTry step C s (a :: labels)) (stepped : step s a = some t) :
    EachTry step C t labels := by
  have later := each.2
  rwa [stepped] at later

theorem eachStep_true (s : σ) (labels : List α) : EachStep step (fun _ _ => True) s labels := by
  induction labels generalizing s with
  | nil => trivial
  | cons a labels ih =>
    rw [EachStep]
    cases step s a with
    | none => trivial
    | some t => exact ⟨trivial, ih t⟩

/-- An invariant that all steps keep. -/
theorem throughout_of_steps {I P : σ → Prop} (keeps : ∀ s a t, I s → step s a = some t → I t)
    (gives : ∀ s, I s → P s) (s : σ) (labels : List α) (start : I s) :
    Throughout step P s labels :=
  throughout_of_invariant (fun s a t here _ next => keeps s a t here next) gives s labels start
    (eachStep_true s labels)

/-- What an invariant and a step together give holds of every step of a run. -/
theorem eachStep_of_steps {I : σ → Prop} {C : σ → α → Prop}
    (keeps : ∀ s a t, I s → step s a = some t → I t)
    (gives : ∀ s a t, I s → step s a = some t → C s a) (s : σ) (labels : List α) (start : I s) :
    EachStep step C s labels := by
  induction labels generalizing s with
  | nil => trivial
  | cons a labels ih =>
    rw [EachStep]
    cases next : step s a with
    | none => trivial
    | some t => exact ⟨gives s a t start next, ih t (keeps s a t start next)⟩

/-- What holds throughout a run holds throughout the run behind its first step. -/
theorem Throughout.next {P : σ → Prop} {s t : σ} {a : α} {labels : List α}
    (all : Throughout step P s (a :: labels)) (stepped : step s a = some t) :
    Throughout step P t labels := by
  have later := all.2
  rwa [stepped] at later

theorem Throughout.here {P : σ → Prop} {s : σ} {labels : List α}
    (all : Throughout step P s labels) :
    P s := by
  cases labels with
  | nil => exact all
  | cons a labels => exact all.1

/-- What holds throughout a run holds in the state that it ends in. -/
theorem Throughout.reached {P : σ → Prop} {s t : σ} {labels : List α}
    (all : Throughout step P s labels) (run : labels.foldlM step s = some t) : P t := by
  induction labels generalizing s with
  | nil => exact Option.some.inj run ▸ all
  | cons a labels ih =>
    rw [List.foldlM_cons] at run
    obtain ⟨u, next, rest⟩ := Option.bind_eq_some_iff.mp run
    exact ih (all.next next) rest

/-- In a run whose states all meet `I`, a property that holds at first holds throughout just when
each step meets the condition that carries it on. -/
theorem Throughout.iff_eachStep {I P : σ → Prop} {C : σ → α → Prop}
    (carries : ∀ s a t, I s → I t → step s a = some t → P s → (P t ↔ C s a)) (s : σ)
    (labels : List α) (good : Throughout step I s labels) (start : P s) :
    Throughout step P s labels ↔ EachStep step C s labels := by
  induction labels generalizing s with
  | nil => exact iff_of_true start trivial
  | cons a labels ih =>
    rw [Throughout, EachStep, and_iff_right start]
    cases next : step s a with
    | none => exact Iff.rfl
    | some t =>
      have later := good.next next
      -- both states of the step are among those of the run
      have here := carries s a t good.here later.here next start
      simp only
      constructor
      · intro all
        exact ⟨here.mp all.here, (ih t later all.here).mp all⟩
      · rintro ⟨met, each⟩
        exact (ih t later (here.mpr met)).mpr each

theorem Throughout.mono {P Q : σ → Prop} {s : σ} {labels : List α}
    (all : Throughout step P s labels) (weaker : ∀ s, P s → Q s) : Throughout step Q s labels := by
  induction labels generalizing s with
  | nil => exact weaker s all
  | cons a labels ih =>
    rw [Throughout] at all ⊢
    cases next : step s a with
    | none => exact ⟨weaker s all.1, trivial⟩
    | some t =>
      rw [next] at all
      exact ⟨weaker s all.1, ih all.2⟩

end Transition
