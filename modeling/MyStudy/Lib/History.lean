import Mathlib.Data.List.Basic

/-!
# Histories

A law over a history of events says of each of them what it needs to have happened before.
-/

namespace History

variable {α : Type}

/-- Each event of the history is one that the events before it allow. -/
def Lawful (allows : List α → α → Prop) (history : List α) : Prop :=
  ∀ before event after, history = before ++ event :: after → allows before event

variable (allows : List α → α → Prop)

theorem lawful_nil : Lawful allows [] := by
  intro before event after none_
  simp at none_

/-- A history goes on lawfully if each later event is allowed by what came before it, all the
earlier events included. -/
theorem lawful_append (earlier later : List α) :
    Lawful allows (earlier ++ later) ↔
      Lawful allows earlier ∧ Lawful (fun before => allows (earlier ++ before)) later := by
  constructor
  · refine fun lawful => ⟨fun before event after parts => ?_, fun before event after parts => ?_⟩
    -- an event of the earlier part, and one of the later part
    · exact lawful before event (after ++ later) (by rw [parts]; simp)
    · exact lawful (earlier ++ before) event after (by rw [parts, List.append_assoc])
  · rintro ⟨first, second⟩ before event after parts
    -- cut the whole at the event: it is past the earlier events, or within them
    rcases List.append_eq_append_iff.mp parts with ⟨more, rfl, rest⟩ | ⟨more, front, rest⟩
    · exact second more event after rest
    · -- the event stands at the end of the earlier events, or it is the first of the later ones
      cases more with
      | nil =>
        rw [List.append_nil] at front
        have here : allows (earlier ++ []) event := second [] event after (by simpa using rest.symm)
        rwa [List.append_nil, front] at here
      | cons event' more =>
        obtain ⟨rfl, _⟩ := List.cons.inj rest
        exact first before event more front

theorem lawful_singleton (event : α) : Lawful allows [event] ↔ allows [] event := by
  constructor
  · exact fun lawful => lawful [] event [] rfl
  · intro here before event' after parts
    cases before with
    | nil =>
      obtain ⟨rfl, _⟩ := List.cons.inj parts
      exact here
    | cons _ before => simp at parts

/-- Events that are allowed at any time make a lawful history. -/
theorem lawful_of_forall (history : List α)
    (free : ∀ event ∈ history, ∀ before, allows before event) :
    Lawful allows history := by
  rintro before event after rfl
  exact free event (by simp) before

theorem Lawful.of_append_left {earlier later : List α} (lawful : Lawful allows (earlier ++ later)) :
    Lawful allows earlier := ((lawful_append allows earlier later).mp lawful).1

end History
