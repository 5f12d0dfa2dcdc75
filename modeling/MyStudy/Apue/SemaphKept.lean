import MyStudy.Apue.Semaph
import MyStudy.Lib.Transition

/-!
# The set is there while somebody uses it

`[2]` is a lock, and `[1]` tells how many have the semaphore open. A set is initialised once, and
the last one that closes it removes it: nobody loses a semaphore that he has open, but for those
that open it while it is about to be removed, since `sem_open` does not take the lock.
-/
namespace Apue.Semaph

open SemSet Transition

variable {Pid : Type}

/-! ### What a process has -/

theorem uses_idle {x : Proc} (before : x.point.closes = none) (id : Nat) :
    x.uses id = x.handles.count id := by
  rw [Proc.uses, before, if_neg (by simp), add_zero]

theorem uses_closing (handles : List Nat) (id id' : Nat) (asleep : Bool) :
    Proc.uses ⟨handles, .closeLock id asleep⟩ id' =
      handles.count id' + if id' = id then 1 else 0 := by
  simp [Proc.uses, Point.closes, eq_comm]

theorem uses_point {x : Proc} {point : Point} (before : x.point.closes = none)
    (after : point.closes = none) (id : Nat) :
    ({ x with point } : Proc).uses id = x.uses id := by rw [Proc.uses, Proc.uses, before, after]

/-- A process that has opened a semaphore once more. -/
theorem uses_opened {x : Proc} (before : x.point.closes = none) (id id' : Nat) :
    Proc.uses ⟨id :: x.handles, .idle⟩ id' = x.uses id' + if id' = id then 1 else 0 := by
  rw [uses_idle before, show Proc.uses ⟨id :: x.handles, .idle⟩ id' = _ from uses_idle rfl id',
    List.count_cons]
  by_cases its : id' = id
  · simp [its]
  · simp [its, Ne.symm its]

/-- The set whose lock a process has. -/
@[simp] def Point.inside : Point → Option Nat
  | .createCount _ id => some id
  | .createSet0 _ id => some id
  | .createSet1 id => some id
  | .createEnd id _ => some id
  | .closeCount id => some id
  | .closeRm id => some id
  | .closeUnlock id _ => some id
  | _ => none

/-- The set that a process initialises. -/
@[simp] def Point.initialises : Point → Option Nat
  | .createSet0 _ id => some id
  | .createSet1 id => some id
  | _ => none

/-- The ids that a process has heard of. -/
@[simp] def Point.ids : Point → List Nat
  | .createLock _ id _ => [id]
  | .openDec id _ => [id]
  | .operating id _ _ => [id]
  | .closeLock id _ => [id]
  | point => point.inside.toList

/-! ### The set -/

section Sound

variable [Fintype Pid]

theorem not_new {k : Values Pid Member} (full : k.total 1 = bigcount) : k.total 1 ≠ 0 := by
  rw [full]
  decide

/-- What the members of a set say of the processes. -/
structure Sound (k : Values Pid Member) (id : Nat) (procs : Pid → Proc) : Prop where
  lock : k.total 2 = 0
  once : k.val 2 ≤ 1
  locked : ∀ p, k.adj p 2 = if (procs p).point.inside = some id then -1 else 0
  users : ∀ p, k.adj p 1 = (procs p).uses id
  count : (k.total 1 = 0 ∧ ∀ p, k.adj p 0 = 0) ∨ k.total 1 = bigcount
  fresh : ∀ p, (procs p).point.initialises = some id → k.total 1 = 0
  counted : ∀ p asleep, (procs p).point = .createEnd id asleep → k.total 1 = bigcount
  last : ∀ p, (procs p).point = .closeRm id → ∀ q, (procs q).uses id = 0

variable {k k' : Values Pid Member} {id : Nat} {procs : Pid → Proc}

theorem Sound.val_one (sound : Sound k id procs) :
    k.total 1 = k.val 1 + ∑ p, ((procs p).uses id : Int) := by
  rw [Values.total, Finset.sum_congr rfl fun p _ => sound.users p]

/-- Nobody has opened a set that is not initialised. -/
theorem Sound.unused (sound : Sound k id procs) (new : k.total 1 = 0) (p : Pid) :
    (procs p).uses id = 0 := by
  have sum := sound.val_one
  have each :=
    Shares.le_sum (f := fun q => ((procs q).uses id : Int)) (fun q => Int.natCast_nonneg _) p
  omega

theorem Sound.nonpos [DecidableEq Pid] (sound : Sound k id procs) (p : Pid) : k.adj p 2 ≤ 0 := by
  rw [sound.locked p]
  split <;> decide

/-- At most one process has the lock. -/
theorem Sound.alone [DecidableEq Pid] (sound : Sound k id procs) {p q : Pid}
    (first : (procs p).point.inside = some id)
    (second : (procs q).point.inside = some id) : p = q := by
  by_contra other
  have all : ∑ r, k.adj r 2 ≤ k.adj p 2 + k.adj q 2 := by
    rw [← Finset.sum_pair other (f := fun r => k.adj r 2)]
    refine Finset.sum_le_sum_of_subset_of_nonpos' (Finset.subset_univ _) fun r _ _ => sound.nonpos r
  rw [sound.locked p, sound.locked q, if_pos first, if_pos second] at all
  have lock := sound.lock
  have once := sound.once
  rw [Values.total] at lock
  omega

variable [DecidableEq Pid]

/-- A process does something to a set with undo, and goes on. -/
theorem Sound.update (sound : Sound k id procs) {p : Pid} {x : Proc}
    (others : ∀ q, q ≠ p → k'.adj q = k.adj q)
    (total1 : k'.total 1 = k.total 1) (total2 : k'.total 2 = k.total 2) (once : k'.val 2 ≤ 1)
    (locked : k'.adj p 2 = if x.point.inside = some id then -1 else 0)
    (users : k'.adj p 1 = x.uses id)
    (zero : k.total 1 = 0 → k'.adj p 0 = 0) (fresh : x.point.initialises = some id → k.total 1 = 0)
    (counted : ∀ asleep, x.point = .createEnd id asleep → k.total 1 = bigcount)
    (last : ∀ q, (Function.update procs p x q).point = .closeRm id →
      ∀ r, (Function.update procs p x r).uses id = 0) :
    Sound k' id (Function.update procs p x) := by
  refine ⟨total2.trans sound.lock, once, fun q => ?_, fun q => ?_, ?_, fun q => ?_,
    fun q => ?_, last⟩
  · by_cases same : q = p
    · subst same
      rw [Function.update_self, locked]
    · rw [Function.update_of_ne same, others q same, sound.locked q]
  · by_cases same : q = p
    · subst same
      rw [Function.update_self, users]
    · rw [Function.update_of_ne same, others q same, sound.users q]
  · rw [total1]
    refine sound.count.imp_left fun ⟨new, none_⟩ => ⟨new, fun q => ?_⟩
    by_cases same : q = p
    · rw [same, zero new]
    · rw [others q same, none_ q]
  · rw [total1]
    by_cases same : q = p
    · subst same
      rwa [Function.update_self]
    · rw [Function.update_of_ne same]
      exact sound.fresh q
  · rw [total1]
    by_cases same : q = p
    · subst same
      rwa [Function.update_self]
    · rw [Function.update_of_ne same]
      exact sound.counted q

/-- A process that only goes on. -/
theorem Sound.move (sound : Sound k id procs) {p : Pid} {x : Proc}
    (uses : x.uses id = (procs p).uses id)
    (inside : x.point.inside = some id ↔ (procs p).point.inside = some id)
    (fresh : x.point.initialises = some id → k.total 1 = 0)
    (counted : ∀ asleep, x.point = .createEnd id asleep → k.total 1 = bigcount)
    (last : x.point = .closeRm id → ∀ r, (procs r).uses id = 0) :
    Sound k id (Function.update procs p x) := by
  have same (r : Pid) : (Function.update procs p x r).uses id = (procs r).uses id := by
    by_cases same : r = p
    · subst same
      rw [Function.update_self, uses]
    · rw [Function.update_of_ne same]
  refine sound.update (fun _ _ => rfl) rfl rfl sound.once ?_ ?_ ?_ fresh counted fun q here r => ?_
  · rw [sound.locked p]
    exact if_congr inside.symm rfl rfl
  · rw [sound.users p, uses]
  · rcases sound.count with ⟨-, none_⟩ | full
    · exact fun _ => none_ p
    · intro new
      rw [new] at full
      cases full
  · rw [same r]
    by_cases its : q = p
    · subst its
      rw [Function.update_self] at here
      exact last here r
    · rw [Function.update_of_ne its] at here
      exact sound.last q here r

/-- A process does operations with undo. -/
theorem Sound.semop (sound : Sound k id procs) {p : Pid} {x : Proc} {ops : List (Sembuf Member)}
    (undo : ∀ b ∈ ops, b.undo = true ∨ b.op = 0) (done : k.semop p ops = .ok k')
    (once : k'.val 2 ≤ 1)
    (uses : (x.uses id : Int) = (procs p).uses id - Values.change 1 ops)
    (inside : (if x.point.inside = some id then (-1 : Int) else 0) =
      (if (procs p).point.inside = some id then -1 else 0) - Values.change 2 ops)
    (zero : k.total 1 = 0 → Values.change 0 ops = 0) (point : x.point.initialises = none)
    (counted : ∀ asleep, x.point ≠ .createEnd id asleep) (notLast : x.point ≠ .closeRm id)
    (last : ∀ q, q ≠ p → (procs q).point = .closeRm id → x.uses id = 0) :
    Sound k' id (Function.update procs p x) := by
  obtain ⟨all, others⟩ := Values.semop_spec undo done
  refine sound.update others (Values.total_semop undo done 1) (Values.total_semop undo done 2) once
    ?_ ?_ ?_ ?_ ?_
    fun q here r => ?_
  · rw [(all 2).2, sound.locked p, inside]
  · rw [(all 1).2, sound.users p, uses]
  · intro new
    rcases sound.count with ⟨-, none_⟩ | full
    · rw [(all 0).2, none_ p, zero new]
      rfl
    · rw [new] at full
      cases full
  · rw [point]
    simp
  · exact fun asleep at_ => absurd at_ (counted asleep)
  · by_cases its : q = p
    · subst its
      rw [Function.update_self] at here
      exact absurd here notLast
    · rw [Function.update_of_ne its] at here
      by_cases same : r = p
      · subst same
        rw [Function.update_self]
        exact last q its here
      · rw [Function.update_of_ne same]
        exact sound.last q here r

omit [DecidableEq Pid] in
/-- What a process has taken of `[1]` finds room there. -/
theorem Sound.room1 (sound : Sound k id procs) (p : Pid) :
    (k.val 1 : Int) + k.adj p 1 ≤ semvmx := by
  have sum := sound.val_one
  have each :=
    Shares.le_sum (f := fun q => ((procs q).uses id : Int)) (fun q => Int.natCast_nonneg _) p
  have room := bigcount_le
  rw [sound.users p]
  rcases sound.count with ⟨new, -⟩ | full <;> omega

/-- A process ends. -/
theorem Sound.exit (sound : Sound k id procs) (p : Pid) :
    Sound (k.exit p) id (Function.update procs p ⟨[], .idle⟩) := by
  have enough1 : 0 ≤ (k.val 1 : Int) + k.adj p 1 := by
    rw [sound.users p]
    omega
  have enough2 : 0 ≤ (k.val 2 : Int) + k.adj p 2 := by
    have least : ∑ r, k.adj r 2 ≤ ∑ r ∈ {p}, k.adj r 2 :=
      Finset.sum_le_sum_of_subset_of_nonpos' (Finset.subset_univ _) fun r _ _ => sound.nonpos r
    rw [Finset.sum_singleton] at least
    have lock := sound.lock
    rw [Values.total] at lock
    omega
  have nonpos := sound.nonpos p
  have once := sound.once
  have few2 : (k.val 2 : Int) + k.adj p 2 ≤ 1 := by omega
  have gone (i : Member) : (k.exit p).adj p i = 0 := congrFun (Function.update_self p _ k.adj) i
  refine sound.update (fun q other => Function.update_of_ne other _ _)
    (Values.total_exit enough1 (sound.room1 p))
    (Values.total_exit enough2 (few2.trans (by decide))) ?_ (gone 2) (gone 1)
    (fun _ => gone 0) (by simp)
    (by simp) fun q here r => ?_
  · change min semvmx ((k.val 2 : Int) + k.adj p 2).toNat ≤ 1
    omega
  · by_cases same : r = p
    · subst same
      rw [Function.update_self]
      rfl
    · rw [Function.update_of_ne same]
      by_cases its : q = p
      · subst its
        rw [Function.update_self] at here
        cases here
      · rw [Function.update_of_ne its] at here
        exact sound.last q here r

/-- `sem_create` gives `[0]` its value. -/
theorem Sound.set0 (sound : Sound k id procs) {p : Pid} {initval : Int}
    (at_ : (procs p).point = .createSet0 initval id) {v : Nat} (small : v ≤ semvmx) :
    Sound (k.setval 0 v small) id
      (Function.update procs p { procs p with point := .createSet1 id }) := by
  have new := sound.fresh p (by rw [at_]; rfl)
  have none_ : ∀ q, k.adj q 0 = 0 := by
    rcases sound.count with ⟨-, none_⟩ | full
    · exact none_
    · exact absurd new (not_new full)
  have same (q : Pid) : (k.setval 0 v small).adj q = k.adj q :=
    Function.update_eq_self_iff.mpr (none_ q).symm
  refine sound.update (fun q _ => same q) (Values.total_setval_other (by decide) _)
    (Values.total_setval_other (by decide) _) sound.once ?_ ?_ (fun _ => ?_)
    (fun _ => new) (by simp)
    fun q here r => ?_
  · rw [same, sound.locked p, at_]
    rfl
  · rw [same, sound.users p, Proc.uses, Proc.uses, at_]
    rfl
  · rw [same, none_ p]
  · by_cases its : q = p
    · subst its
      rw [Function.update_self] at here
      cases here
    · rw [Function.update_of_ne its] at here
      refine absurd (sound.alone (p := q) (q := p) ?_ ?_) its
      · rw [here]
        rfl
      · rw [at_]
        rfl

/-- `sem_create` tells that the set is initialised. -/
theorem Sound.set1 (sound : Sound k id procs) {p : Pid} (at_ : (procs p).point = .createSet1 id) :
    Sound (k.setval 1 bigcount bigcount_le) id
      (Function.update procs p { procs p with point := .createEnd id false }) := by
  have new := sound.fresh p (by rw [at_]; rfl)
  have same (q : Pid) : (k.setval 1 bigcount bigcount_le).adj q = k.adj q :=
    Function.update_eq_self_iff.mpr (by rw [sound.users q, sound.unused new q]; rfl)
  have full : (k.setval 1 bigcount bigcount_le).total 1 = bigcount := Values.total_setval _
  -- nobody else has the lock
  have other (q : Pid) (its : q ≠ p) : (procs q).point.inside ≠ some id := by
    intro inside
    exact its (sound.alone inside (by rw [at_]; rfl))
  have uses (q : Pid) :
      (Function.update procs p { procs p with point := .createEnd id false } q).uses id =
      (procs q).uses id := by
    by_cases its : q = p
    · subst its
      rw [Function.update_self, Proc.uses, Proc.uses, at_]
      rfl
    · rw [Function.update_of_ne its]
  refine ⟨(Values.total_setval_other (by decide) _).trans sound.lock, sound.once, fun q => ?_,
    fun q => ?_,
    .inr full, fun q here => ?_, fun _ _ _ => full, fun q here r => ?_⟩
  · rw [same, sound.locked q]
    by_cases its : q = p
    · subst its
      rw [Function.update_self, at_]
      rfl
    · rw [Function.update_of_ne its]
  · rw [same, sound.users q, uses]
  · by_cases its : q = p
    · subst its
      rw [Function.update_self] at here
      cases here
    · rw [Function.update_of_ne its] at here
      refine absurd ?_ (other q its)
      cases point : (procs q).point with
      | createSet0 | createSet1 =>
        rw [point] at here
        exact here
      | _ =>
        rw [point] at here
        cases here
  · rw [uses r]
    exact sound.unused new r

end Sound

/-! ### States -/

variable [DecidableEq Pid]

omit [DecidableEq Pid] in
theorem Kernel.get_eq_some {kernel : Kernel Pid} {id : Nat} {k : Values Pid Member} :
    kernel.get id = some k ↔ id + 1 = kernel.made ∧ kernel.live = some k := by
  rw [Kernel.get]
  split <;> simp_all

theorem State.semop_cases {s t : State Pid} {p : Pid} {id : Nat} {ops : List (Sembuf Member)}
    {asleep : Bool} {sleeps : Point} {done : Proc} {invalid : State Pid}
    (does : s.semop p id ops asleep sleeps done invalid = some t) :
    (s.kernel.get id = none ∧ t = invalid) ∨
      ∃ k, s.kernel.get id = some k ∧
      ((∃ k', k.semop p ops = .ok k' ∧ t = (s.setLive (some k')).setProc p done) ∨
        t = s.setPoint p sleeps ∨ k.semop p ops = .error .range ∧ t = s.exit p) := by
  rw [State.semop] at does
  cases set : s.kernel.get id with
  | none =>
    rw [set] at does
    exact .inl ⟨rfl, (Option.some.inj does).symm⟩
  | some k =>
    rw [set] at does
    refine .inr ⟨k, rfl, ?_⟩
    dsimp only at does
    split at does
    next k' ops => exact .inl ⟨k', ops, (Option.some.inj does).symm⟩
    next =>
      split at does
      · cases does
      · exact .inr (.inl (Option.some.inj does).symm)
    next range => exact .inr (.inr ⟨range, (Option.some.inj does).symm⟩)

/-- What a process uses is there. -/
structure Proc.Fine (x : Proc) (kernel : Kernel Pid) : Prop where
  known : ∀ id ∈ x.handles ++ x.point.ids, id < kernel.made
  used : ∀ id, x.uses id ≠ 0 → (kernel.get id).isSome
  inside : ∀ id, x.point.inside = some id → (kernel.get id).isSome
  operating : ∀ id value asleep, x.point = .operating id value asleep → id ∈ x.handles

omit [DecidableEq Pid] in
theorem Proc.Fine.mono {x : Proc} {kernel kernel' : Kernel Pid} (fine : x.Fine kernel)
    (made : kernel.made ≤ kernel'.made)
    (stays : ∀ id, (kernel.get id).isSome → (kernel'.get id).isSome) :
    x.Fine kernel' :=
  ⟨fun id member => (fine.known id member).trans_le made,
  fun id uses => stays id (fine.used id uses),
    fun id inside => stays id (fine.inside id inside), fine.operating⟩

variable [Fintype Pid]

structure Inv (s : State Pid) : Prop where
  made : s.kernel.live.isSome → 0 < s.kernel.made
  fine : ∀ p, (s.procs p).Fine s.kernel
  sound : ∀ id k, s.kernel.get id = some k → Sound k id s.procs

variable {s t : State Pid} {p : Pid} {x : Proc} {id : Nat}

/-- A process goes on, and the set stays, with other values perhaps. -/
theorem Inv.update (inv : Inv s) {live : Option (Values Pid Member)}
    (stays : live.isSome = s.kernel.live.isSome)
    (fine : x.Fine s.kernel)
    (sound : ∀ id k, (s.setLive live).kernel.get id = some k →
      Sound k id (Function.update s.procs p x)) :
    Inv ((s.setLive live).setProc p x) := by
  have same (id : Nat) (there : (s.kernel.get id).isSome) :
      ((s.setLive live).kernel.get id).isSome := by
    rw [Kernel.get] at there ⊢
    change (if id + 1 = s.kernel.made then live else none).isSome
    split at there
    next its => rwa [if_pos its, stays]
    next => cases there
  refine ⟨fun some_ => inv.made (stays ▸ some_), fun q => ?_, sound⟩
  change (Function.update s.procs p x q).Fine (s.setLive live).kernel
  by_cases its : q = p
  · rw [its, Function.update_self]
    exact fine.mono (Nat.le_refl _) same
  · rw [Function.update_of_ne its]
    exact (inv.fine q).mono (Nat.le_refl _) same

/-- A process goes on with the same sets. -/
theorem Inv.move (inv : Inv s) (fine : x.Fine s.kernel)
    (uses : ∀ id, x.uses id = (s.procs p).uses id)
    (inside : x.point.inside = (s.procs p).point.inside)
    (fresh : ∀ id k, s.kernel.get id = some k → x.point.initialises = some id → k.total 1 = 0)
    (counted : ∀ id k asleep, s.kernel.get id = some k → x.point = .createEnd id asleep →
      k.total 1 = bigcount)
    (last : ∀ id, x.point = .closeRm id → ∀ r, (s.procs r).uses id = 0) : Inv (s.setProc p x) :=
  inv.update (show s.kernel.live.isSome = _ from rfl) fine fun id k set =>
    (inv.sound id k set).move (uses id) (by rw [inside]) (fresh id k set)
      (fun asleep => counted id k asleep set)
      (last id)

/-- A process does operations with undo on a set. -/
theorem Inv.semop (inv : Inv s) {k k' : Values Pid Member} {ops : List (Sembuf Member)}
    (set : s.kernel.get id = some k) (undo : ∀ b ∈ ops, b.undo = true ∨ b.op = 0)
    (done : k.semop p ops = .ok k')
    (fine : x.Fine s.kernel) (once : k'.val 2 ≤ 1) 
    (uses : (x.uses id : Int) = (s.procs p).uses id - Values.change 1 ops)
    (inside : (if x.point.inside = some id then (-1 : Int) else 0) =
      (if (s.procs p).point.inside = some id then -1 else 0) - Values.change 2 ops)
    (zero : k.total 1 = 0 → Values.change 0 ops = 0) (point : x.point.initialises = none)
    (counted : ∀ asleep, x.point ≠ .createEnd id asleep) (notLast : x.point ≠ .closeRm id)
    (last : ∀ q, q ≠ p → (s.procs q).point = .closeRm id → x.uses id = 0) :
    Inv ((s.setLive (some k')).setProc p x) := by
  obtain ⟨its, live⟩ := Kernel.get_eq_some.mp set
  refine inv.update (by rw [live]; rfl) fine fun id' k'' set' => ?_
  obtain ⟨its', same⟩ := Kernel.get_eq_some.mp set'
  obtain rfl : id' = id := by
    change id' + 1 = s.kernel.made at its'
    omega
  cases same
  exact (inv.sound id' k set).semop undo done once uses inside zero point counted notLast last

theorem Inv.exit (inv : Inv s) (p : Pid) : Inv (s.exit p) := by
  refine inv.update (by simp) ⟨by simp, fun id uses => absurd rfl uses, by simp, by simp⟩
    fun id k set => ?_
  obtain ⟨its, live⟩ := Kernel.get_eq_some.mp set
  obtain ⟨k', live', rfl⟩ := Option.map_eq_some_iff.mp live
  exact (inv.sound id k' (Kernel.get_eq_some.mpr ⟨its, live'⟩)).exit p

/-- `semctl` on a set that is there. -/
theorem Inv.semctl (inv : Inv s) {does : Values Pid Member → State Pid}
    (set : ∀ k, s.kernel.get id = some k → Inv (does k)) : Inv (s.semctl p id does) := by
  rw [State.semctl]
  cases there : s.kernel.get id with
  | none => exact inv.exit p
  | some k => exact set k there

/-! ### Steps -/

/-- The condition on a step: nobody opens a semaphore that is about to be removed, fewer than
`bigcount` have it open when it is created, and nobody calls `sem_rm` itself. -/
def Careful (s : State Pid) : Label Pid → Prop
  | .go p =>
    match (s.procs p).point with
    | .openDec id _ => ∀ q, (s.procs q).point ≠ .closeRm id
    | .createCount _ id => ∑ q, (s.procs q).uses id < bigcount
    | .removing _ => False
    | _ => True
  | _ => True

/-- A process at another point of the same set. -/
theorem Inv.setPoint (inv : Inv s) {point : Point} (known : ∀ id ∈ point.ids, id < s.kernel.made)
    (uses : ∀ id, ({ s.procs p with point } : Proc).uses id = (s.procs p).uses id)
    (inside : point.inside = (s.procs p).point.inside)
    (operating : ∀ id value asleep, point = .operating id value asleep → id ∈ (s.procs p).handles)
    (fresh : ∀ id k, s.kernel.get id = some k → point.initialises = some id → k.total 1 = 0)
    (counted : ∀ id k asleep, s.kernel.get id = some k → point = .createEnd id asleep →
      k.total 1 = bigcount)
    (last : ∀ id, point = .closeRm id → ∀ r, (s.procs r).uses id = 0) :
    Inv (s.setPoint p point) := by
  have fine := inv.fine p
  refine inv.move ⟨fun id member => ?_, fun id some_ => ?_, fun id here => ?_, operating⟩ uses
    inside fresh
    counted last
  · rcases List.mem_append.mp member with handle | member
    · exact fine.known id (List.mem_append_left _ handle)
    · exact known id member
  · exact fine.used id (by rwa [← uses])
  · exact fine.inside id (by rwa [← inside])

theorem Inv.call (inv : Inv s) {request : Request} (idle : (s.procs p).point = .idle)
    (called : s.call p request = some t) : Inv t := by
  have fine := inv.fine p
  cases request with
  | create initval =>
    obtain rfl := Option.some.inj called
    exact inv.setPoint (by simp) (uses_point (by rw [idle]; rfl) rfl) (by rw [idle]; rfl)
      (by simp) (by simp)
      (by simp) (by simp)
  | open_ =>
    obtain rfl := Option.some.inj called
    exact inv.setPoint (by simp) (uses_point (by rw [idle]; rfl) rfl) (by rw [idle]; rfl)
      (by simp) (by simp)
      (by simp) (by simp)
  | op id value =>
    rw [State.call] at called
    split at called
    next has =>
      obtain rfl := Option.some.inj called
      split
      · exact inv.exit p
      · refine inv.setPoint (fun id' member => ?_) (uses_point (by rw [idle]; rfl) rfl)
          (by rw [idle]; rfl)
          (fun id' value' asleep same => ?_) (by simp) (by simp) (by simp)
        · rw [List.mem_singleton.mp member]
          exact fine.known id (List.mem_append_left _ has)
        · cases same
          exact has
    next => cases called
  | close id =>
    rw [State.call] at called
    split at called
    next has =>
      obtain rfl := Option.some.inj called
      have uses (id' : Nat) : Proc.uses ⟨(s.procs p).handles.erase id, .closeLock id false⟩ id' =
          (s.procs p).uses id' := by
        rw [uses_closing, uses_idle (by rw [idle]; rfl)]
        by_cases same : id' = id
        · subst same
          have := List.count_pos_iff.mpr has
          rw [if_pos rfl, List.count_erase_self]
          omega
        · rw [if_neg same, List.count_erase_of_ne same, add_zero]
      refine inv.move ⟨fun id' member => ?_, fun id' some_ => ?_, by simp, by simp⟩ uses
        (by rw [idle]; rfl)
        (by simp) (by simp) (by simp)
      · rcases List.mem_append.mp member with handle | member
        · exact fine.known id' (List.mem_append_left _ (List.mem_of_mem_erase handle))
        · rw [List.mem_singleton.mp member]
          exact fine.known id (List.mem_append_left _ has)
      · exact fine.used id' (by rwa [← uses])
    next => cases called
  | rm id =>
    obtain rfl := Option.some.inj called
    exact inv.setPoint (by simp) (uses_point (by rw [idle]; rfl) rfl) (by rw [idle]; rfl)
      (by simp) (by simp)
      (by simp) (by simp)

omit [DecidableEq Pid] in
/-- `semget` makes a set that nobody has heard of. -/
theorem Inv.create (inv : Inv s) : Inv { s with kernel := s.kernel.create.1 } ∧
    s.kernel.create.2 < s.kernel.create.1.made := by
  rw [Kernel.create]
  cases live : s.kernel.live with
  | some k =>
    have made := inv.made (by rw [live]; rfl)
    exact ⟨inv, by dsimp only; omega⟩
  | none =>
    have nothing (id : Nat) : s.kernel.get id = none := by
      rw [Kernel.get, live]
      split <;> rfl
    refine ⟨⟨fun _ => Nat.succ_pos _,
      fun p => (inv.fine p).mono (Nat.le_succ _) fun id there => ?_, ?_⟩,
      Nat.lt_succ_self _⟩
    · rw [nothing id] at there
      cases there
    · intro id k set
      obtain ⟨its, same⟩ := Kernel.get_eq_some.mp set
      cases same
      -- nobody uses the new id
      have unused (p : Pid) : (s.procs p).uses id = 0 := by
        by_contra uses
        have there := (inv.fine p).used id uses
        rw [nothing id] at there
        cases there
      have outside (p : Pid) : (s.procs p).point.inside ≠ some id := by
        intro inside
        have there := (inv.fine p).inside id inside
        rw [nothing id] at there
        cases there
      refine ⟨Values.total_zero 2, Nat.zero_le _, fun p => (if_neg (outside p)).symm,
        fun p => by rw [unused p]; rfl, .inl ⟨Values.total_zero 1, fun _ => rfl⟩,
        fun _ _ => Values.total_zero 1, fun p asleep here => ?_, fun p here => ?_⟩
      · exact absurd (by rw [here]; rfl) (outside p)
      · exact absurd (by rw [here]; rfl) (outside p)

/-- The last one that closes a semaphore removes it. -/
theorem Inv.remove (inv : Inv s) (at_ : (s.procs p).point = .closeRm id) :
    Inv ((s.setLive none).setPoint p .idle) := by
  obtain ⟨k, set⟩ := Option.isSome_iff_exists.mp ((inv.fine p).inside id (by rw [at_]; rfl))
  have sound := inv.sound id k set
  obtain ⟨its, live⟩ := Kernel.get_eq_some.mp set
  -- any set that is there is this one
  have this (id' : Nat) (there : (s.kernel.get id').isSome) : id' = id := by
    obtain ⟨k', set'⟩ := Option.isSome_iff_exists.mp there
    have := (Kernel.get_eq_some.mp set').1
    omega
  have unused (q : Pid) (id' : Nat) : (s.procs q).uses id' = 0 := by
    by_contra uses
    obtain rfl := this id' ((inv.fine q).used id' uses)
    exact uses (sound.last p at_ q)
  refine ⟨fun there => absurd there Bool.false_ne_true, fun q => ?_, fun id' k' set' => ?_⟩
  · change (Function.update s.procs p { s.procs p with point := .idle } q).Fine
      (s.setLive none).kernel
    by_cases same : q = p
    · subst same
      rw [Function.update_self]
      refine ⟨fun id' member => (inv.fine q).known id' ?_, fun id' uses => absurd ?_ uses,
        by simp, by simp⟩
      · rcases List.mem_append.mp member with handle | nothing
        · exact List.mem_append_left _ handle
        · exact absurd nothing List.not_mem_nil
      · have zero := unused q id'
        rw [Proc.uses, at_] at zero
        exact zero
    · rw [Function.update_of_ne same]
      refine ⟨(inv.fine q).known, fun id' uses => absurd (unused q id') uses, fun id' inside => ?_,
        (inv.fine q).operating⟩
      -- it would have the lock, too
      obtain rfl := this id' ((inv.fine q).inside id' inside)
      exact absurd (sound.alone inside (by rw [at_]; rfl)) same
  · have nothing := (Kernel.get_eq_some.mp set').2
    cases nothing

omit [DecidableEq Pid] [Fintype Pid] in
/-- A process that has done its operations on a set that is there. -/
theorem Proc.Fine.of_set {kernel : Kernel Pid} {k : Values Pid Member} {y : Proc}
    (fine : x.Fine kernel) (set : kernel.get id = some k)
    (handles : ∀ id' ∈ y.handles, id' = id ∨ id' ∈ x.handles)
    (ids : ∀ id' ∈ y.point.ids, id' = id) (uses : ∀ id', id' ≠ id → y.uses id' = x.uses id')
    (operating : ∀ id' value asleep, y.point ≠ .operating id' value asleep) : y.Fine kernel := by
  have made := (Kernel.get_eq_some.mp set).1
  refine ⟨fun id' member => ?_, fun id' some_ => ?_, fun id' inside => ?_,
  fun id' value asleep here =>
    absurd here (operating id' value asleep)⟩
  · rcases List.mem_append.mp member with handle | member
    · rcases handles id' handle with rfl | old
      · omega
      · exact fine.known id' (List.mem_append_left _ old)
    · rw [ids id' member]
      omega
  · by_cases same : id' = id
    · rw [same, set]
      rfl
    · exact fine.used id' (by rwa [← uses id' same])
  · have member : id' ∈ y.point.ids := by
      revert inside
      cases y.point <;> simp [Point.inside, Point.ids, eq_comm]
    rw [ids id' member, set]
    rfl

/-- A process that has to wait. -/
theorem Inv.sleeps (inv : Inv s) {point : Point} (ids : point.ids = (s.procs p).point.ids)
    (closes : point.closes = (s.procs p).point.closes)
    (inside : point.inside = (s.procs p).point.inside)
    (initialises : point.initialises = none)
    (operating : ∀ id value asleep, point = .operating id value asleep → id ∈ (s.procs p).handles)
    (counted : ∀ id asleep, point = .createEnd id asleep →
      ∃ asleep, (s.procs p).point = .createEnd id asleep)
    (last : ∀ id, point ≠ .closeRm id) : Inv (s.setPoint p point) := by
  refine inv.setPoint (fun id member => ?_) (fun id => ?_) inside operating (fun id k _ same => ?_)
    (fun id k asleep set same => ?_) fun id same => absurd same (last id)
  · rw [ids] at member
    exact (inv.fine p).known id (List.mem_append_right _ member)
  · rw [Proc.uses, Proc.uses, closes]
  · rw [initialises] at same
    cases same
  · obtain ⟨asleep, before⟩ := counted id asleep same
    exact (inv.sound id k set).counted p asleep before

/-- `sem_create` until it has the lock. -/
theorem Inv.createLock (inv : Inv s) {initval : Int} {asleep : Bool}
    (at_ : (s.procs p).point = .createLock initval id asleep)
    (goes : s.go p (.createLock initval id asleep) = some t) : Inv t := by
  have before : (s.procs p).point.closes = none := by rw [at_]; rfl
  rcases State.semop_cases goes with ⟨-, rfl⟩ | ⟨k, set, ⟨k', done, rfl⟩ | rfl | ⟨-, rfl⟩⟩
  · split
    · exact inv.exit p
    · exact inv.setPoint (by simp) (uses_point before rfl) (by rw [at_]; rfl) (by simp) (by simp)
        (by simp) (by simp)
  · -- nobody had the lock
    have zero := Values.val_of_semop_wait done
    have val := ((Values.semop_spec (by decide) done).1 2).1
    rw [zero, show Values.change 2 opLock = 1 from rfl] at val
    refine inv.semop set (by decide) done ((inv.fine p).of_set set (fun _ => .inr) ?_
      (fun id' _ => uses_point before rfl id') (by simp)) (by omega) ?_ ?_ (fun _ =>
      rfl) rfl (by simp) (by simp)
      fun q other last => ?_
    · exact fun id' member => List.mem_singleton.mp member
    · rw [uses_point before rfl id]
      rfl
    · rw [at_]
      simp [Point.inside, Values.change, opLock]
    · rw [uses_point before rfl id]
      exact (inv.sound id k set).last q last p
  · exact inv.sleeps (by rw [at_]; rfl) (by rw [at_]; rfl) (by rw [at_]; rfl) rfl (by simp)
      (by simp) (by simp)
  · exact inv.exit p

/-- `sem_create` reads the number of those that have the semaphore open. -/
theorem Inv.createCount (inv : Inv s) {initval : Int}
    (at_ : (s.procs p).point = .createCount initval id)
    (few : ∑ q, (s.procs q).uses id < bigcount) :
    Inv (s.semctl p id fun k =>
      s.setPoint p (if k.val 1 = 0 then .createSet0 initval id else .createEnd id false)) := by
  have before : (s.procs p).point.closes = none := by rw [at_]; rfl
  refine inv.semctl fun k set => ?_
  have sound := inv.sound id k set
  have sum := sound.val_one
  rw [← Nat.cast_sum] at sum
  have made := (Kernel.get_eq_some.mp set).1
  split
  next zero =>
    -- as the counter is 0, it cannot have begun at `bigcount`
    have new : k.total 1 = 0 := by
      rcases sound.count with ⟨new, -⟩ | full
      · exact new
      · omega
    refine inv.setPoint (fun id' member => ?_) (uses_point before rfl) (by rw [at_]; rfl) (by simp)
      (fun id' k' set' same => ?_) (by simp) (by simp)
    · rw [List.mem_singleton.mp member]
      omega
    · cases same
      rw [set] at set'
      cases set'
      exact new
  next nonzero =>
    have full : k.total 1 = bigcount := by
      rcases sound.count with ⟨new, -⟩ | full
      · omega
      · exact full
    refine inv.setPoint (fun id' member => ?_) (uses_point before rfl) (by rw [at_]; rfl)
      (by simp) (by simp)
      (fun id' k' asleep set' same => ?_) (by simp)
    · rw [List.mem_singleton.mp member]
      omega
    · cases same
      rw [set] at set'
      cases set'
      exact full

/-- A process sets a value of the set whose lock it has. -/
theorem Inv.setval (inv : Inv s) {k k' : Values Pid Member} {point : Point}
    (set : s.kernel.get id = some k) (ids : point.ids = [id])
    (uses : ∀ id', ({ s.procs p with point } : Proc).uses id' = (s.procs p).uses id')
    (operating : ∀ id value asleep, point ≠ .operating id value asleep)
    (sound : Sound k' id (Function.update s.procs p { s.procs p with point })) :
    Inv ((s.setLive (some k')).setPoint p point) := by
  obtain ⟨made, live⟩ := Kernel.get_eq_some.mp set
  refine inv.update (by rw [live]; rfl)
    ((inv.fine p).of_set set (fun _ => .inr) ?_ (fun id' _ => uses id') operating)
    fun id' k'' set' => ?_
  · intro id' member
    change id' ∈ point.ids at member
    rw [ids] at member
    exact List.mem_singleton.mp member
  · obtain ⟨made', same⟩ := Kernel.get_eq_some.mp set'
    obtain rfl : id' = id := by
      change id' + 1 = s.kernel.made at made'
      omega
    cases same
    exact sound

/-- The end of `sem_create`. -/
theorem Inv.createEnd (inv : Inv s) {asleep : Bool} (at_ : (s.procs p).point = .createEnd id asleep)
    (goes : s.go p (.createEnd id asleep) = some t) : Inv t := by
  have before : (s.procs p).point.closes = none := by rw [at_]; rfl
  rcases State.semop_cases goes with ⟨-, rfl⟩ | ⟨k, set, ⟨k', done, rfl⟩ | rfl | ⟨-, rfl⟩⟩
  · exact inv.exit p
  · have sound := inv.sound id k set
    have val := ((Values.semop_spec (by decide) done).1 2).1
    rw [show Values.change 2 opEndcreate = -1 from rfl] at val
    have once := sound.once
    refine inv.semop set (by decide) done
      ((inv.fine p).of_set set ?_ (by simp) (fun id' other => ?_) (by simp))
      (by omega) ?_ ?_
      (fun _ => rfl) rfl (by simp) (by simp) fun q other last => ?_
    · exact fun id' member => (List.mem_cons.mp member)
    · rw [uses_opened before, if_neg other, add_zero]
    · rw [uses_opened before, if_pos rfl, show Values.change 1 opEndcreate = -1 from rfl]
      push_cast
      omega
    · rw [at_]
      simp [Point.inside, Values.change, opEndcreate]
    · -- he who removes the set would have the lock, too
      exact absurd (sound.alone (by rw [last]; rfl) (by rw [at_]; rfl)) other
  · refine inv.sleeps (by rw [at_]; rfl) (by rw [at_]; rfl) (by rw [at_]; rfl) rfl (by simp)
      (fun id' asleep' same => ?_) (by simp)
    cases same
    exact ⟨asleep, at_⟩
  · exact inv.exit p

/-- `sem_open` goes on without the lock. -/
theorem Inv.openDec (inv : Inv s) {asleep : Bool} (at_ : (s.procs p).point = .openDec id asleep)
    (notLast : ∀ q, (s.procs q).point ≠ .closeRm id) (goes : s.go p (.openDec id asleep) = some t) :
    Inv t := by
  have before : (s.procs p).point.closes = none := by rw [at_]; rfl
  rcases State.semop_cases goes with ⟨-, rfl⟩ | ⟨k, set, ⟨k', done, rfl⟩ | rfl | ⟨-, rfl⟩⟩
  · exact inv.exit p
  · have val := ((Values.semop_spec (by decide) done).1 2).1
    rw [show Values.change 2 opOpen = 0 from rfl] at val
    have once := (inv.sound id k set).once
    refine inv.semop set (by decide) done
      ((inv.fine p).of_set set ?_ (by simp) (fun id' other => ?_) (by simp))
      (by omega) ?_ ?_
      (fun _ => rfl) rfl (by simp) (by simp) fun q other last => absurd last (notLast q)
    · exact fun id' member => (List.mem_cons.mp member)
    · rw [uses_opened before, if_neg other, add_zero]
    · rw [uses_opened before, if_pos rfl, show Values.change 1 opOpen = -1 from rfl]
      push_cast
      omega
    · rw [at_]
      simp [Point.inside, Values.change, opOpen]
  · exact inv.sleeps (by rw [at_]; rfl) (by rw [at_]; rfl) (by rw [at_]; rfl) rfl (by simp)
      (by simp) (by simp)
  · exact inv.exit p

/-- `sem_op`, with a semaphore that is open. -/
theorem Inv.operate (inv : Inv s) {value : Int} {asleep : Bool}
    (at_ : (s.procs p).point = .operating id value asleep)
    (goes : s.go p (.operating id value asleep) = some t) : Inv t := by
  have before : (s.procs p).point.closes = none := by rw [at_]; rfl
  have has := (inv.fine p).operating id value asleep at_
  have undo : ∀ b ∈ opOp value, b.undo = true ∨ b.op = 0 := by simp [opOp]
  rcases State.semop_cases goes with ⟨-, rfl⟩ | ⟨k, set, ⟨k', done, rfl⟩ | rfl | ⟨-, rfl⟩⟩
  · exact inv.exit p
  · have sound := inv.sound id k set
    have val := ((Values.semop_spec undo done).1 2).1
    rw [show Values.change 2 (opOp value) = 0 from rfl] at val
    have once := sound.once
    refine inv.semop set undo done ((inv.fine p).of_set set (fun _ => .inr) (by simp)
      (fun id' _ => uses_point before rfl id') (by simp)) (by omega) ?_ ?_ (fun new =>
      ?_) rfl (by simp) (by simp)
      fun q other last => ?_
    · rw [uses_point before rfl id, show Values.change 1 (opOp value) = 0 from rfl, sub_zero]
    · rw [at_, show Values.change 2 (opOp value) = 0 from rfl]
      simp [Point.inside]
    · -- a set that is not initialised has nobody who uses it
      have unused := sound.unused new p
      rw [uses_idle before] at unused
      exact absurd has (List.count_eq_zero.mp unused)
    · rw [uses_point before rfl id]
      exact sound.last q last p
  · refine inv.sleeps (by rw [at_]; rfl) (by rw [at_]; rfl) (by rw [at_]; rfl) rfl
      (fun id' value' asleep' same => ?_)
      (by simp) (by simp)
    cases same
    exact has
  · exact inv.exit p

/-- `sem_close` until it has the lock. -/
theorem Inv.closeLock (inv : Inv s) {asleep : Bool} (at_ : (s.procs p).point = .closeLock id asleep)
    (goes : s.go p (.closeLock id asleep) = some t) : Inv t := by
  have uses (id' : Nat) : (s.procs p).uses id' =
      (s.procs p).handles.count id' + if id' = id then 1 else 0 := by
    have shape : s.procs p = ⟨(s.procs p).handles, .closeLock id asleep⟩ := by rw [← at_]
    rw [shape]
    exact uses_closing _ _ _ _
  rcases State.semop_cases goes with ⟨-, rfl⟩ | ⟨k, set, ⟨k', done, rfl⟩ | rfl | ⟨-, rfl⟩⟩
  · exact inv.exit p
  · have zero := Values.val_of_semop_wait done
    have val := ((Values.semop_spec (by decide) done).1 2).1
    rw [zero, show Values.change 2 opClose = 1 from rfl] at val
    have closed (id' : Nat) :
        Proc.uses { s.procs p with point := .closeCount id } id' = (s.procs p).handles.count id' :=
      uses_idle rfl id'
    refine inv.semop set (by decide) done
      ((inv.fine p).of_set set (fun _ => .inr) ?_ (fun id' other => ?_) (by simp))
      (by omega) ?_ ?_ (fun _ => rfl) rfl (by simp) (by simp) fun q other last => ?_
    · exact fun id' member => List.mem_singleton.mp member
    · rw [closed, uses, if_neg other, add_zero]
    · rw [closed, uses, if_pos rfl, show Values.change 1 opClose = 1 from rfl]
      push_cast
      omega
    · rw [at_]
      simp [Point.inside, Values.change, opClose]
    · have unused := (inv.sound id k set).last q last p
      rw [uses, if_pos rfl] at unused
      omega
  · exact inv.sleeps (by rw [at_]; rfl) (by rw [at_]; rfl) (by rw [at_]; rfl) rfl (by simp)
      (by simp) (by simp)
  · exact inv.exit p

/-- `sem_close` reads whether anybody else has the semaphore open. -/
theorem Inv.closeCount (inv : Inv s) (at_ : (s.procs p).point = .closeCount id) :
    Inv (s.semctl p id fun k =>
      if k.val 1 > bigcount then s.exit p
      else s.setPoint p (if k.val 1 = bigcount then .closeRm id else .closeUnlock id false)) := by
  have before : (s.procs p).point.closes = none := by rw [at_]; rfl
  refine inv.semctl fun k set => ?_
  have sound := inv.sound id k set
  have made := (Kernel.get_eq_some.mp set).1
  split
  · exact inv.exit p
  · split
    next whole =>
      have sum := sound.val_one
      rw [← Nat.cast_sum, whole] at sum
      have nobody : ∑ r, (s.procs r).uses id = 0 := by
        rcases sound.count with ⟨new, -⟩ | full <;> omega
      refine inv.setPoint (fun id' member => ?_) (uses_point before rfl) (by rw [at_]; rfl)
        (by simp) (by simp)
        (by simp)
        fun id' same r => ?_
      · rw [List.mem_singleton.mp member]
        omega
      · cases same
        exact Finset.sum_eq_zero_iff.mp nobody r (Finset.mem_univ r)
    next =>
      refine inv.setPoint (fun id' member => ?_) (uses_point before rfl) (by rw [at_]; rfl)
        (by simp) (by simp)
        (by simp) (by simp)
      rw [List.mem_singleton.mp member]
      omega

/-- `sem_close` gives the lock back. -/
theorem Inv.closeUnlock (inv : Inv s) {asleep : Bool}
    (at_ : (s.procs p).point = .closeUnlock id asleep)
    (goes : s.go p (.closeUnlock id asleep) = some t) : Inv t := by
  have before : (s.procs p).point.closes = none := by rw [at_]; rfl
  rcases State.semop_cases goes with ⟨-, rfl⟩ | ⟨k, set, ⟨k', done, rfl⟩ | rfl | ⟨-, rfl⟩⟩
  · exact inv.exit p
  · have sound := inv.sound id k set
    have val := ((Values.semop_spec (by decide) done).1 2).1
    rw [show Values.change 2 opUnlock = -1 from rfl] at val
    have once := sound.once
    refine inv.semop set (by decide) done ((inv.fine p).of_set set (fun _ => .inr) (by simp)
      (fun id' _ => uses_point before rfl id') (by simp)) (by omega) ?_ ?_ (fun _ =>
      rfl) rfl (by simp) (by simp)
      fun q other last => ?_
    · rw [uses_point before rfl id, show Values.change 1 opUnlock = 0 from rfl, sub_zero]
    · rw [at_]
      simp [Point.inside, Values.change, opUnlock]
    · rw [uses_point before rfl id]
      exact sound.last q last p
  · exact inv.sleeps (by rw [at_]; rfl) (by rw [at_]; rfl) (by rw [at_]; rfl) rfl (by simp)
      (by simp) (by simp)
  · exact inv.exit p

/-- What every step keeps. -/
theorem Inv.step (inv : Inv s) {label : Label Pid} (careful : Careful s label)
    (steps : step s label = some t) :
    Inv t := by
  cases label with
  | call p request =>
    rw [Semaph.step] at steps
    split at steps
    next idle => exact inv.call idle steps
    next => cases steps
  | exit p =>
    obtain rfl := Option.some.inj steps
    exact inv.exit p
  | go p =>
    rw [Semaph.step] at steps
    rw [Careful] at careful
    cases at_ : (s.procs p).point with
    | idle =>
      rw [at_] at steps
      cases steps
    | creating initval =>
      rw [at_] at steps
      obtain rfl := Option.some.inj steps
      obtain ⟨inv', new⟩ := inv.create
      refine Inv.setPoint (p := p) inv' (fun id' member => ?_) (uses_point ?_ rfl) ?_ (by simp)
        (by simp) (by simp)
        (by simp)
      · rw [List.mem_singleton.mp member]
        exact new
      · change (s.procs p).point.closes = none
        rw [at_]
        rfl
      · change _ = (s.procs p).point.inside
        rw [at_]
        rfl
    | createLock initval id asleep => exact inv.createLock at_ (by rwa [at_] at steps)
    | createCount initval id =>
      rw [at_] at steps careful
      obtain rfl := Option.some.inj steps
      exact inv.createCount at_ careful
    | createSet0 initval id =>
      rw [at_] at steps
      obtain rfl := Option.some.inj steps
      refine inv.semctl fun k set => ?_
      split
      next small =>
        exact inv.setval set rfl (uses_point (by rw [at_]; rfl) rfl) (by simp)
          ((inv.sound id k set).set0 at_ small.2)
      next => exact inv.exit p
    | createSet1 id =>
      rw [at_] at steps
      obtain rfl := Option.some.inj steps
      exact inv.semctl fun k set => inv.setval set rfl (uses_point (by rw [at_]; rfl) rfl) (by simp)
        ((inv.sound id k set).set1 at_)
    | createEnd id asleep => exact inv.createEnd at_ (by rwa [at_] at steps)
    | opening =>
      rw [at_, State.go] at steps
      have before : (s.procs p).point.closes = none := by rw [at_]; rfl
      split at steps
      · obtain rfl := Option.some.inj steps
        exact inv.setPoint (by simp) (uses_point before rfl) (by rw [at_]; rfl) (by simp)
          (by simp) (by simp)
          (by simp)
      next k live =>
        obtain rfl := Option.some.inj steps
        have made := inv.made (by rw [live]; rfl)
        refine inv.setPoint (fun id' member => ?_) (uses_point before rfl) (by rw [at_]; rfl)
          (by simp) (by simp)
          (by simp) (by simp)
        rw [List.mem_singleton.mp member]
        omega
    | openDec id asleep =>
      rw [at_] at careful
      exact inv.openDec at_ careful (by rwa [at_] at steps)
    | operating id value asleep => exact inv.operate at_ (by rwa [at_] at steps)
    | closeLock id asleep => exact inv.closeLock at_ (by rwa [at_] at steps)
    | closeCount id =>
      rw [at_] at steps
      obtain rfl := Option.some.inj steps
      exact inv.closeCount at_
    | closeRm id =>
      rw [at_] at steps
      obtain rfl := Option.some.inj steps
      exact inv.semctl fun _ _ => inv.remove at_
    | closeUnlock id asleep => exact inv.closeUnlock at_ (by rwa [at_] at steps)
    | removing id =>
      rw [at_] at careful
      exact careful.elim

/-! ### Runs -/

/-- What a program that uses the semaphore relies on. -/
structure Served (s : State Pid) : Prop where
  kept : ∀ p id, (s.procs p).uses id ≠ 0 → (s.kernel.get id).isSome
  counter : ∀ p id k, (s.procs p).uses id ≠ 0 → s.kernel.get id = some k →
    k.val 1 + ∑ q, (s.procs q).uses id = bigcount
  alone : ∀ p q id, (s.procs p).point.inside = some id → (s.procs q).point.inside = some id → p = q

omit [DecidableEq Pid] in
theorem Sound.full {k : Values Pid Member} {procs : Pid → Proc} (sound : Sound k id procs) {p : Pid}
    (uses : (procs p).uses id ≠ 0) : k.total 1 = bigcount := by
  rcases sound.count with ⟨new, -⟩ | full
  · exact absurd (sound.unused new p) uses
  · exact full

theorem Inv.served (inv : Inv s) : Served s := by
  refine ⟨fun p => (inv.fine p).used, fun p id k uses set => ?_, fun p q id first second => ?_⟩
  · have sound := inv.sound id k set
    have sum := sound.val_one
    rw [sound.full uses, ← Nat.cast_sum] at sum
    omega
  · obtain ⟨k, set⟩ := Option.isSome_iff_exists.mp ((inv.fine p).inside id first)
    exact (inv.sound id k set).alone first second

omit [DecidableEq Pid] in
theorem inv_init : Inv (.init : State Pid) := by
  refine ⟨by simp [State.init], fun p => ⟨by simp [State.init], fun id uses => absurd rfl uses,
    by simp [State.init], by simp [State.init]⟩,
    fun id k set => ?_⟩
  have nothing := (Kernel.get_eq_some.mp set).2
  cases nothing

/-- **Nobody loses a semaphore that he has open**, `[1]` tells how many have it open, and at most
one process has the lock: in every run of any number of processes, wherever some of them end, as
long as each step is careful. -/
theorem open_semaphores_kept (labels : List (Label Pid))
    (careful : EachStep step Careful State.init labels) :
    Throughout step Served State.init labels :=
  throughout_of_invariant (fun _ _ _ inv careful steps => inv.step careful steps)
    (fun _ => Inv.served) State.init
    labels inv_init careful

instance (s : State Pid) : ∀ label, Decidable (Careful s label)
  | .call _ _ => isTrue trivial
  | .exit _ => isTrue trivial
  | .go p => by
    cases at_ : (s.procs p).point with
    | openDec id asleep =>
      exact decidable_of_iff (∀ q, (s.procs q).point ≠ .closeRm id) (by simp [Careful, at_])
    | createCount initval id =>
      exact decidable_of_iff (∑ q, (s.procs q).uses id < bigcount) (by simp [Careful, at_])
    | removing id => exact isFalse (by simp [Careful, at_])
    | _ => exact isTrue (by simp [Careful, at_])

/-- One process creates a semaphore, another one opens it, waits, and ends; the first one closes it
then. -/
theorem open_semaphores_kept_crash :
    let labels : List (Label Bool) :=
      [.call false (.create 1), .go false, .go false, .go false, .go false, .go false,
      .go false, .call true .open_, .go true, .go true, .call true (.op 0 (-1)), .go true,
        .call false (.op 0 (-1)),
      .go false, .exit true, .go false, .call false (.close 0), .go false, .go false, .go false]
    (labels.foldlM step State.init).isSome ∧ Throughout step Served State.init labels := by
  refine ⟨by decide, open_semaphores_kept _ (by decide)⟩

/-- One process opens the semaphore while another one is about to remove it. -/
theorem open_semaphores_lost :
    ∃ labels : List (Label Bool), ¬ Throughout step Served State.init labels := by
  let labels : List (Label Bool) :=
    [.call false (.create 1), .go false, .go false, .go false, .go false, .go false,
    .go false, .call true .open_, .go true, .call false (.close 0), .go false, .go false,
    .go true, .go false]
  refine ⟨labels, fun all => ?_⟩
  have ends : (labels.foldlM step State.init).isSome := by decide
  have lost : (labels.foldlM step State.init).all fun t =>
      (t.procs true).uses 0 ≠ 0 ∧ (t.kernel.get 0).isSome = false := by decide
  obtain ⟨t, reached⟩ := Option.isSome_iff_exists.mp ends
  rw [reached, Option.all_some, decide_eq_true_eq] at lost
  have there := (all.reached reached).kept true 0 lost.1
  rw [lost.2] at there
  cases there

end Apue.Semaph
