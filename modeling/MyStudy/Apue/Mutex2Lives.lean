import MyStudy.Apue.Mutex2Sound

/-!
# Some thread can go on

`hashlock` is taken before the lock of an object: who has the lock of an object waits for nothing,
and who has `hashlock` at most for such a lock.
-/
namespace Apue.Mutex2

open Transition

/-- The object for whose lock a thread waits. -/
def Point.wantsFoo : Point → Option Addr
  | .allocLock fp => some fp
  | .holdLock fp => some fp
  | .findLock _ fp => some fp
  | .releLock fp => some fp
  | .releRelock fp => some fp
  | _ => none

def Point.wantsHash : Point → Bool
  | .allocLockHash _ _ => true
  | .findLockHash _ => true
  | .releLockHash _ => true
  | _ => false

theorem Point.wants_of_locked {p : Point} {fp : Addr} (locked : p.locked = some fp) :
    p.wantsFoo = none ∧ p.wantsHash = false := by
  cases p <;> first | exact ⟨rfl, rfl⟩ | cases locked

theorem Point.wants_of_inHash {p : Point} (inHash : p.inHash = true) : p.wantsHash = false := by
  cases p <;> first | rfl | cases inHash

/-- A thread that goes on by itself, or when `malloc` returns. -/
def Point.runs : Point → Bool
  | .idle => false
  | .allocMalloc _ => false
  | _ => true

theorem Point.runs_of_locked {p : Point} {fp : Addr} (locked : p.locked = some fp) :
    p.runs = true := by
  cases p <;> first | rfl | cases locked

theorem Point.runs_of_inHash {p : Point} (inHash : p.inHash = true) : p.runs = true := by
  cases p <;> first | rfl | cases inHash

section

variable {Tid : Type} [DecidableEq Tid] {s : State Tid} {t : Tid} {fp : Addr}

@[simp] theorem goesTo_not_blocked {q : Point} : s.goesTo t q ≠ .blocked := by simp [State.goesTo]

omit [DecidableEq Tid] in
theorem atFoo_not_blocked {does : Foo Tid → Result (State Tid)} (goes : ∀ o, does o ≠ .blocked) :
    s.atFoo fp does ≠ .blocked := by
  rw [State.atFoo]
  cases s.heap fp with
  | none => simp
  | some o => exact goes o

theorem lockFoo_not_blocked {q : Point} (free : s.holder fp = none) :
    s.lockFoo t fp q ≠ .blocked := by
  rw [State.lockFoo, State.atFoo]
  cases there : s.heap fp with
  | none => simp
  | some o =>
    have lock : o.lock = none := (view_there there).2.2.2.symm.trans free
    simp [lock]

theorem unlockFoo_not_blocked {x : Thread} : s.unlockFoo t fp x ≠ .blocked :=
  atFoo_not_blocked fun o => by split <;> simp

theorem lockHash_not_blocked {q : Point} (free : s.hashlock = none) :
    s.lockHash t q ≠ .blocked := by
  rw [State.lockHash, free]
  simp

theorem unlockHash_not_blocked {x : Thread} : s.unlockHash t x ≠ .blocked := by
  rw [State.unlockHash]
  split <;> simp

theorem addCount_not_blocked {n : Int} {q : Point} : s.addCount t fp n q ≠ .blocked :=
  atFoo_not_blocked fun o => by split <;> simp

/-- A thread waits for nothing but the lock that it wants. -/
theorem go_not_blocked {p : Point} (runs : p.runs = true)
    (foo : ∀ fp, p.wantsFoo = some fp → s.holder fp = none)
    (hash : p.wantsHash = true → s.hashlock = none) : s.go t p ≠ .blocked := by
  cases p with
  | idle => cases runs
  | allocMalloc id => cases runs
  | allocLockHash id fp => exact lockHash_not_blocked (hash rfl)
  | allocNext id fp => exact atFoo_not_blocked (by simp)
  | allocHead id fp => simp [State.go]
  | allocLock fp => exact lockFoo_not_blocked (foo fp rfl)
  | allocUnlockHash fp => exact unlockHash_not_blocked
  | allocUnlock fp => exact unlockFoo_not_blocked
  | holdLock fp => exact lockFoo_not_blocked (foo fp rfl)
  | holdCount fp => exact addCount_not_blocked
  | holdUnlock fp => exact unlockFoo_not_blocked
  | findLockHash id => exact lockHash_not_blocked (hash rfl)
  | findHead id => simp [State.go]
  | findTest id next =>
    cases next with
    | none => simp [State.go]
    | some fp => exact atFoo_not_blocked (by simp)
  | findLock id fp => exact lockFoo_not_blocked (foo fp rfl)
  | findCount id fp => exact addCount_not_blocked
  | findUnlock id fp => exact unlockFoo_not_blocked
  | findUnlockHash id next => exact unlockHash_not_blocked
  | releLock fp => exact lockFoo_not_blocked (foo fp rfl)
  | releTest fp => exact atFoo_not_blocked (by simp)
  | releUnlockFirst fp => exact unlockFoo_not_blocked
  | releLockHash fp => exact lockHash_not_blocked (hash rfl)
  | releRelock fp => exact lockFoo_not_blocked (foo fp rfl)
  | releRecheck fp => exact atFoo_not_blocked (by simp)
  | releRecount fp => exact addCount_not_blocked
  | releUnlockAgain fp => exact unlockFoo_not_blocked
  | releUnlockHashAgain => exact unlockHash_not_blocked
  | releHead fp => exact atFoo_not_blocked fun o => by split <;> simp
  | releUnlinkHead fp => exact atFoo_not_blocked (by simp)
  | releWalk fp tfp => exact atFoo_not_blocked fun o => by split <;> simp
  | releUnlink fp tfp => exact atFoo_not_blocked fun o => atFoo_not_blocked (by simp)
  | releUnlockHash fp => exact unlockHash_not_blocked
  | releUnlock fp => exact unlockFoo_not_blocked
  | releDestroy fp => exact atFoo_not_blocked fun o => by split <;> simp
  | releFree fp => exact atFoo_not_blocked (by simp)
  | releCount fp => exact addCount_not_blocked
  | releUnlockLast fp => exact unlockFoo_not_blocked

variable [Fintype Tid] {chain : Fin nhash → List Addr}

/-- While a call has not returned, some thread can go on, or the next one goes beyond what an `int`
counts. -/
def GoesOn (s : State Tid) : Prop :=
  ∀ t, (s.threads t).point ≠ .idle →
    ∃ u, (step s (.go u)).isSome ∨ (step s (.malloc u none)).isSome ∨ Overflows s (.go u)

theorem Sound.step_go (sound : Sound s chain) (runs : (s.threads t).point.runs = true)
    (foo : ∀ fp, (s.threads t).point.wantsFoo = some fp → s.holder fp = none)
    (hash : (s.threads t).point.wantsHash = true → s.hashlock = none) :
    (step s (.go t)).isSome ∨ (step s (.malloc t none)).isSome ∨ Overflows s (.go t) := by
  have all := sound.act (.go t)
  have moves : Mutex2.act s (.go t) ≠ .blocked := go_not_blocked runs foo hash
  rw [step]
  cases did : Mutex2.act s (.go t) with
  | blocked => exact absurd did moves
  | fault =>
    rw [did] at all
    exact .inr (.inr all)
  | ok s' => exact .inl rfl

theorem Sound.goesOn (sound : Sound s chain) : GoesOn s := by
  intro t busy
  by_cases locks : ∃ fp u, s.holder fp = some u
  · obtain ⟨fp, u, holds⟩ := locks
    have locked := (sound.fooOwner fp u).mp holds
    obtain ⟨foo, hash⟩ := Point.wants_of_locked locked
    exact ⟨u, sound.step_go (Point.runs_of_locked locked) (by simp [foo]) (by simp [hash])⟩
  · have free (fp : Addr) : s.holder fp = none :=
      Option.eq_none_iff_forall_ne_some.mpr fun u holds => locks ⟨fp, u, holds⟩
    cases lock : s.hashlock with
    | some u =>
      have inHash := (sound.hashOwner u).mp lock
      have hash := Point.wants_of_inHash inHash
      exact ⟨u, sound.step_go (Point.runs_of_inHash inHash) (fun fp _ => free fp) (by simp [hash])⟩
    | none =>
      by_cases runs : (s.threads t).point.runs = true
      · exact ⟨t, sound.step_go runs (fun fp _ => free fp) fun _ => lock⟩
      · refine ⟨t, .inr (.inl ?_)⟩
        cases its : (s.threads t).point with
        | idle => exact absurd its busy
        | allocMalloc id =>
          rw [step, Mutex2.act, its]
          rfl
        | _ => simp [its, Point.runs] at runs

/-- No calls wait for each other. -/
theorem calls_go_on (labels : List (Label Tid)) : Throughout step GoesOn State.init labels :=
  throughout_of_steps (fun _ _ _ kept next => kept_step kept next)
    (fun _ ⟨_, sound⟩ => sound.goesOn) _ labels
    ⟨_, Sound.init⟩

end

end Apue.Mutex2
