import Mathlib
import MyStudy.Lib.Transition

/-!
# The list of client threads

`add_worker`, `client_cleanup` and `kill_workers` of `printd.c`. The entry of a thread is at a place
of its own until it is freed, and so is its number; what comes of an access to an entry that was
freed nobody knows.
-/
namespace Apue.Printd

open Transition

/-- The entries in memory, and the client threads between `add_worker` and `client_cleanup`. -/
structure Workers where
  workers : Option Nat
  next : Nat → Option Nat
  prev : Nat → Option Nat
  allocated : List Nat
  running : List Nat
  started : Nat
  harmed : Bool

inductive WorkerCall where
  | add
  | cleanup (tid : Nat)
  deriving DecidableEq

namespace Workers

/-- The threads that `kill_workers` cancels, from an entry on. -/
def reached (s : Workers) : Nat → Option Nat → Option (List Nat)
  | _, none => some []
  | 0, some _ => none
  | rounds + 1, some wtp =>
    if wtp ∈ s.allocated then (s.reached rounds (s.next wtp)).map fun more => wtp :: more else none

def killWorkers (s : Workers) : Option (List Nat) := s.reached (s.started + 1) s.workers

def addWorker (s : Workers) : Workers :=
  let wtp := s.started
  let s := { s with
    allocated := wtp :: s.allocated
    running := wtp :: s.running
    started := s.started + 1
    prev := Function.update s.prev wtp none
    next := Function.update s.next wtp s.workers }
  match s.workers with
  | none => { s with workers := some wtp }
  | some first =>
    if first ∈ s.allocated then { s with prev := Function.update s.prev first (some wtp) }
    else { s with harmed := true }

/-- The loop of `client_cleanup`; `none` when it comes to an entry that was freed. -/
def seek (s : Workers) (tid : Nat) : Nat → Option Nat → Option (Option Nat)
  | _, none => some none
  | 0, some _ => none
  | rounds + 1, some wtp =>
    if wtp ∈ s.allocated then
      if wtp = tid then some (some wtp) else s.seek tid rounds (s.next wtp) else none

/-- What `client_cleanup` does to the neighbours of an entry, if they are still there. -/
def unlink (s : Workers) (wtp : Nat) : Workers :=
  let s := match s.next wtp with
    | none => s
    | some next =>
      if next ∈ s.allocated then { s with prev := Function.update s.prev next (s.prev wtp) }
      else { s with harmed := true }
  match s.prev wtp with
  | none => { s with workers := s.next wtp }
  | some prev =>
    if prev ∈ s.allocated then { s with next := Function.update s.next prev (s.next wtp) }
    else { s with harmed := true }

def clientCleanup (s : Workers) (tid : Nat) : Workers :=
  let s := { s with running := s.running.erase tid }
  match s.seek tid (s.started + 1) s.workers with
  | none => { s with harmed := true }
  | some none => s
  | some (some wtp) =>
    let s := s.unlink wtp
    { s with allocated := s.allocated.erase wtp }

def init : Workers := ⟨none, fun _ => none, fun _ => none, [], [], 0, false⟩

def step (s : Workers) : WorkerCall → Option Workers
  | .add => if s.harmed then none else some s.addWorker
  | .cleanup tid => if s.harmed ∨ tid ∉ s.running then none else some (s.clientCleanup tid)

/-- `kill_workers` would cancel the client threads, and no entry is left over. -/
def Accounted (s : Workers) : Prop :=
  s.harmed = false ∧ s.killWorkers = some s.running ∧ s.allocated = s.running

/-- No thread is added while another one runs. -/
def Single (s : Workers) : WorkerCall → Prop
  | .add => s.running = []
  | .cleanup _ => True

/-- There is one client thread at most. -/
inductive OneAtMost (s : Workers) : Prop
  | idle (running : s.running = []) (allocated : s.allocated = []) (workers : s.workers = none)
      (harmed : s.harmed = false)
  | busy (tid : Nat) (running : s.running = [tid]) (allocated : s.allocated = [tid])
      (workers : s.workers = some tid)
      (next : s.next tid = none) (prev : s.prev tid = none) (before : tid < s.started)
      (harmed : s.harmed = false)

variable {s s' : Workers}

theorem OneAtMost.accounted (one : OneAtMost s) : Accounted s := by
  cases one with
  | idle running allocated workers harmed =>
    exact ⟨harmed, by simp [killWorkers, reached, workers, running], by simp [running, allocated]⟩
  | busy tid running allocated workers next prev before harmed =>
    exact ⟨harmed,
      by simp [killWorkers, reached, workers, running, allocated, next], by
      simp [running, allocated]⟩

theorem OneAtMost.step (one : OneAtMost s) {label : WorkerCall} (single : Single s label)
    (steps : s.step label = some s') : OneAtMost s' := by
  cases one with
  | idle running allocated workers harmed =>
    cases label with
    | add =>
      rw [Workers.step, if_neg (by simp [harmed])] at steps
      obtain rfl := Option.some.inj steps
      refine .busy s.started ?_ ?_ ?_ ?_ ?_ ?_ ?_ <;>
        simp [addWorker, workers, running, allocated, harmed]
    | cleanup tid => simp [Workers.step, running] at steps
  | busy tid running allocated workers next prev before harmed =>
    cases label with
    | add => simp [Single, running] at single
    | cleanup other =>
      rw [Workers.step] at steps
      split at steps
      next => cases steps
      next stays =>
        obtain rfl : other = tid := by simpa [running, harmed] using stays
        obtain rfl := Option.some.inj steps
        refine .idle ?_ ?_ ?_ ?_ <;>
          simp [clientCleanup, seek, unlink, workers, running, allocated, next, prev, harmed]

/-- The entry that is added while another thread runs is not found. -/
theorem OneAtMost.needs (one : OneAtMost s) {label : WorkerCall} (steps : s.step label = some s')
    (accounted : Accounted s') : Single s label := by
  cases label with
  | cleanup tid => trivial
  | add =>
    cases one with
    | idle running => exact running
    | busy tid running allocated workers next prev before harmed =>
      rw [Workers.step, if_neg (by simp [harmed])] at steps
      obtain rfl := Option.some.inj steps
      have other : tid ≠ s.started := before.ne
      obtain ⟨-, kills, -⟩ := accounted
      simp [addWorker, killWorkers, reached, workers, running, allocated, next,
        Function.update_of_ne other] at kills

/-- **One client at a time**: in a run `kill_workers` would always cancel all client threads, with
no entry left over and no access to one that was freed, if and only if no thread is added while
another one runs. -/
theorem workers_accounted (labels : List WorkerCall) :
    Throughout step Accounted init labels ↔ EachStep step Single init labels :=
  throughout_iff_eachStep (I := OneAtMost) (fun _ _ _ one single steps => one.step single steps)
    (fun _ one => one.accounted)
    (fun _ _ _ one steps accounted => one.needs steps accounted) init labels
    (.idle rfl rfl rfl rfl)

end Workers

end Apue.Printd
