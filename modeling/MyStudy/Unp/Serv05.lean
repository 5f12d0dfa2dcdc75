import Mathlib
import MyStudy.Lib.Transition

/-!
# A server that passes its connections to children

`serv05.c` and `child05.c`: the parent accepts connections and passes each to a child that is free,
and a child writes a byte when it is done. The parent goes round its loop once in a step, for the
descriptors that `select` found ready.
-/
namespace Unp.Serv05

open Transition

/-- What a child has: a descriptor in its pipe, a client, or a byte in the pipe that the parent has
not read. -/
inductive Point where
  | waiting
  | passed (connfd : Int)
  | serving (connfd : Int)
  | done
  deriving DecidableEq

/-- The parent and its children, with what was accepted and to whom it was passed. -/
structure State (nchildren : Nat) where
  childStatus : Fin nchildren → Bool
  childCount : Fin nchildren → Nat
  navail : Int
  quit : Bool
  point : Fin nchildren → Point
  accepted : List Int
  passed : List (Fin nchildren × Int)

inductive Label (nchildren : Nat) where
  | turn (connfd : Option Int) (ready : List (Fin nchildren))
  | child (i : Fin nchildren)

variable {nchildren : Nat}

namespace State

/-- A connection goes to the first child that is free. -/
def pass (s : State nchildren) (connfd : Int) : State nchildren :=
  match (List.finRange nchildren).find? fun i => !s.childStatus i with
  | none => { s with quit := true }
  | some i =>
    { s with
      childStatus := Function.update s.childStatus i true
      childCount := Function.update s.childCount i (s.childCount i + 1)
      navail := s.navail - 1
      point := Function.update s.point i (.passed connfd)
      accepted := s.accepted ++ [connfd]
      passed := s.passed ++ [(i, connfd)] }

/-- The byte of a child is read. -/
def free (s : State nchildren) (i : Fin nchildren) : State nchildren :=
  { s with
    childStatus := Function.update s.childStatus i false
    navail := s.navail + 1
    point := Function.update s.point i .waiting }

def init : State nchildren where
  childStatus _ := false
  childCount _ := 0
  navail := nchildren
  quit := false
  point _ := .waiting
  accepted := []
  passed := []

end State

/-- The listening descriptor is looked at only while there are children left. -/
def step (s : State nchildren) : Label nchildren → Option (State nchildren)
  | .turn connfd ready =>
    if s.quit = false ∧ (connfd.isSome → 0 < s.navail) ∧ ready.Nodup ∧
      ∀ i ∈ ready, s.point i = .done then
      let s := match connfd with
        | none => s
        | some connfd => s.pass connfd
      some (if s.quit then s else ready.foldl State.free s)
    else none
  | .child i =>
    match s.point i with
    | .passed connfd => some { s with point := Function.update s.point i (.serving connfd) }
    | .serving _ => some { s with point := Function.update s.point i .done }
    | _ => none

/-- The books are right: a child is marked while it has something, `navail` counts the others, the
parent never finds no child, and each connection is passed once, to a child that serves no other. -/
structure Kept (s : State nchildren) : Prop where
  status : ∀ i, s.childStatus i = true ↔ s.point i ≠ .waiting
  navail : s.navail = (Finset.univ.filter fun i => s.childStatus i = false).card
  quit : s.quit = false
  order : s.accepted = s.passed.map Prod.snd
  counts : ∀ i, s.childCount i = (s.passed.filter fun x => x.1 = i).length
  serving : ∀ i connfd, s.point i = .passed connfd ∨ s.point i = .serving connfd →
    (s.passed.filter fun x => x.1 = i).getLast? = some (i, connfd)

variable {s s' : State nchildren} {i : Fin nchildren}

theorem Kept.pass (kept : Kept s) (some_ : 0 < s.navail) (connfd : Int) :
    Kept (s.pass connfd) ∧ ∀ j, s.point j = .done → (s.pass connfd).point j = .done := by
  obtain ⟨i, isFree⟩ : ∃ i, s.childStatus i = false := by
    have count := kept.navail
    by_contra none_
    have nobody : (Finset.univ.filter fun i => s.childStatus i = false) = ∅ :=
      Finset.filter_eq_empty_iff.mpr fun i _ free => none_ ⟨i, free⟩
    rw [nobody, Finset.card_empty] at count
    omega
  rw [State.pass]
  split
  next missing =>
    have busy := List.find?_eq_none.mp missing i (List.mem_finRange i)
    simp [isFree] at busy
  next i found =>
    have here : s.childStatus i = false := by simpa using List.find?_some found
    have waits : s.point i = .waiting := by
      by_contra other
      have busy := (kept.status i).mpr other
      rw [here] at busy
      cases busy
    refine ⟨⟨fun j => ?_, ?_, kept.quit, by simp [kept.order], fun j => ?_, fun j fd has => ?_⟩,
      fun j ends => ?_⟩
    · by_cases same : j = i
      · simp [same]
      · simpa [same] using kept.status j
    · have less : (Finset.univ.filter fun j => Function.update s.childStatus i true j = false) =
          (Finset.univ.filter fun j => s.childStatus j = false).erase i := by
        ext j
        by_cases same : j = i <;> simp [same]
      have member : i ∈ Finset.univ.filter fun j => s.childStatus j = false := by simp [here]
      have positive := Finset.card_pos.mpr ⟨i, member⟩
      have count := kept.navail
      simp only [less, Finset.card_erase_of_mem member]
      omega
    · by_cases same : j = i
      · simp [same, List.filter_append, kept.counts]
      · simp [same, Ne.symm same, List.filter_append, kept.counts]
    · by_cases same : j = i
      · have its : connfd = fd := by simpa [same] using has
        simp [same, its, List.filter_append]
      · simpa [same, Ne.symm same, List.filter_append]
          using kept.serving j fd (by simpa [same] using has)
    · have other : j ≠ i := by
        rintro rfl
        rw [waits] at ends
        cases ends
      simpa [other] using ends

theorem Kept.free (kept : Kept s) (ends : s.point i = .done) : Kept (s.free i) := by
  have busy : s.childStatus i = true := (kept.status i).mpr (by simp [ends])
  refine ⟨fun j => ?_, ?_, kept.quit, kept.order, kept.counts, fun j fd has => ?_⟩
  · by_cases same : j = i
    · simp [State.free, same]
    · simpa [State.free, same] using kept.status j
  · have more : (Finset.univ.filter fun j => Function.update s.childStatus i false j = false) =
        insert i (Finset.univ.filter fun j => s.childStatus j = false) := by
      ext j
      by_cases same : j = i <;> simp [same]
    have absent : i ∉ Finset.univ.filter fun j => s.childStatus j = false := by simp [busy]
    have count := kept.navail
    change s.navail + 1 =
      ((Finset.univ.filter fun j => Function.update s.childStatus i false j = false).card : Int)
    rw [more, Finset.card_insert_of_notMem absent]
    omega
  · by_cases same : j = i
    · simp [State.free, same] at has
    · exact kept.serving j fd (by simpa [State.free, same] using has)

/-- The children that are done, one after the other. -/
theorem Kept.frees {ready : List (Fin nchildren)} (kept : Kept s) (once : ready.Nodup)
    (ends : ∀ i ∈ ready, s.point i = .done) : Kept (ready.foldl State.free s) := by
  induction ready generalizing s with
  | nil => exact kept
  | cons i ready ih =>
    obtain ⟨absent, rest⟩ := List.nodup_cons.mp once
    refine ih (kept.free (ends i List.mem_cons_self)) rest fun j member => ?_
    have other : j ≠ i := by
      rintro rfl
      exact absent member
    simpa [State.free, other] using ends j (List.mem_cons_of_mem _ member)

/-- A child goes on with the connection that it has. -/
theorem Kept.moves (kept : Kept s) {point : Point} (busy : s.point i ≠ .waiting)
    (still : point ≠ .waiting)
    (same : ∀ fd, point = .passed fd ∨ point = .serving fd → s.point i = .passed fd) :
    Kept { s with point := Function.update s.point i point } := by
  refine ⟨fun j => ?_, kept.navail, kept.quit, kept.order, kept.counts, fun j fd has => ?_⟩
  · by_cases its : j = i
    · subst its
      simpa [still, busy] using kept.status j
    · simpa [its] using kept.status j
  · by_cases its : j = i
    · subst its
      exact kept.serving j fd (.inl (same fd (by simpa using has)))
    · exact kept.serving j fd (by simpa [its] using has)

theorem Kept.step (kept : Kept s) {label : Label nchildren} (steps : step s label = some s') :
    Kept s' := by
  cases label with
  | turn connfd ready =>
    simp only [Serv05.step] at steps
    split at steps
    next can =>
      obtain ⟨-, left_, once, ends⟩ := can
      cases connfd with
      | none =>
        have goes : ready.foldl State.free s = s' := by simpa [kept.quit] using steps
        exact goes ▸ kept.frees once ends
      | some connfd =>
        obtain ⟨after, still⟩ := kept.pass (left_ rfl) connfd
        have goes : ready.foldl State.free (s.pass connfd) = s' := by simpa [after.quit] using steps
        exact goes ▸ after.frees once fun i member => still i (ends i member)
    next => cases steps
  | child i =>
    simp only [Serv05.step] at steps
    split at steps
    next connfd at_ =>
      obtain rfl := Option.some.inj steps
      refine kept.moves (by simp [at_]) (by simp) fun fd its => ?_
      have same : connfd = fd := by simpa using its
      rw [at_, same]
    next connfd at_ =>
      obtain rfl := Option.some.inj steps
      exact kept.moves (by simp [at_]) (by simp) fun fd its => by simp at its
    next => cases steps

/-- **No child is asked twice**, in every run: a connection goes to a child that has none, and there
always is one when `main` looks for it. -/
theorem connections_passed (labels : List (Label nchildren)) :
    Throughout step Kept State.init labels :=
  throughout_of_steps (fun _ _ _ kept steps => kept.step steps) (fun _ => id) State.init labels
    ⟨by simp [State.init], by simp [State.init], rfl, rfl, by simp [State.init],
      by simp [State.init]⟩

end Unp.Serv05
