import MyStudy.Apue.SemaphKept

/-!
# No unit is lost

What `[0]` holds and what the processes have taken is always what the semaphore was created with,
wherever a process ends: the system gives back what it has taken.
-/
namespace Apue.Semaph

open SemSet Transition

variable {Pid : Type} [DecidableEq Pid] [Fintype Pid]

/-- The value that a process creates the semaphore with. -/
@[simp] def Point.initval : Point → Option Int
  | .creating initval => some initval
  | .createLock initval _ _ => some initval
  | .createCount initval _ => some initval
  | .createSet0 initval _ => some initval
  | _ => none

/-- What there is of the units. -/
structure Whole (v : Int) (s : State Pid) : Prop where
  initval : ∀ p w, (s.procs p).point.initval = some w → w = v
  stale : ∀ p, ∀ id ∈ (s.procs p).point.ids, s.kernel.get id = none → ∀ k, s.kernel.live = some k →
    k.adj p 0 = 0
  set0 : ∀ p id k, (s.procs p).point = .createSet1 id → s.kernel.get id = some k → k.total 0 = v
  total : ∀ k, s.kernel.live = some k → k.total 1 = bigcount → k.total 0 = v

variable {v : Int} {s t : State Pid} {p : Pid} {x : Proc} {id : Nat}

/-- A process goes on with the same sets. -/
theorem Whole.move (whole : Whole v s) (initval : ∀ w, x.point.initval = some w → w = v)
    (ids : ∀ id ∈ x.point.ids, id ∈ (s.procs p).point.ids ∨ (s.kernel.get id).isSome)
    (set0 : ∀ id, x.point ≠ .createSet1 id) : Whole v (s.setProc p x) := by
  refine ⟨fun q w => ?_, fun q id => ?_, fun q id k => ?_, whole.total⟩
  · change (Function.update s.procs p x q).point.initval = some w → w = v
    by_cases its : q = p
    · rw [its, Function.update_self]
      exact initval w
    · rw [Function.update_of_ne its]
      exact whole.initval q w
  · change id ∈ (Function.update s.procs p x q).point.ids → s.kernel.get id = none → _
    by_cases its : q = p
    · rw [its, Function.update_self]
      intro member stale
      rcases ids id member with before | there
      · exact whole.stale p id before stale
      · rw [stale] at there
        cases there
    · rw [Function.update_of_ne its]
      exact whole.stale q id
  · change (Function.update s.procs p x q).point = .createSet1 id → s.kernel.get id = some k → _
    by_cases its : q = p
    · rw [its, Function.update_self]
      exact fun here => absurd here (set0 id)
    · rw [Function.update_of_ne its]
      exact whole.set0 q id k

/-- A process changes the values of a set that is there. -/
theorem Whole.change (whole : Whole v s) {k k' : Values Pid Member}
    (set : s.kernel.get id = some k) (others : ∀ q, q ≠ p → k'.adj q 0 = k.adj q 0)
    (ids : ∀ id' ∈ x.point.ids, id' = id) (initval : ∀ w, x.point.initval = some w → w = v)
    (set0 : ∀ id', x.point = .createSet1 id' → k'.total 0 = v)
    (kept : ∀ q, q ≠ p → (s.procs q).point = .createSet1 id → k'.total 0 = v)
    (total : k'.total 1 = bigcount → k'.total 0 = v) :
    Whole v ((s.setLive (some k')).setProc p x) := by
  obtain ⟨made, live⟩ := Kernel.get_eq_some.mp set
  -- the same ids are there
  have there (id' : Nat) : (s.setLive (some k')).kernel.get id' = none ↔
      s.kernel.get id' = none := by
    rw [Kernel.get, Kernel.get, live]
    change (if id' + 1 = s.kernel.made then some k' else none) = none ↔ _
    split <;> simp
  refine ⟨fun q w => ?_, fun q id' => ?_, fun q id' k'' => ?_, ?_⟩
  · change (Function.update s.procs p x q).point.initval = some w → w = v
    by_cases its : q = p
    · rw [its, Function.update_self]
      exact initval w
    · rw [Function.update_of_ne its]
      exact whole.initval q w
  · change id' ∈ (Function.update s.procs p x q).point.ids →
      (s.setLive (some k')).kernel.get id' = none → _
    rw [there]
    rintro member stale k'' ⟨⟩
    by_cases its : q = p
    · rw [its, Function.update_self] at member
      rw [ids id' member, set] at stale
      cases stale
    · rw [Function.update_of_ne its] at member
      rw [others q its]
      exact whole.stale q id' member stale k live
  · change (Function.update s.procs p x q).point = .createSet1 id' →
      (s.setLive (some k')).kernel.get id' = some k'' → _
    intro here set'
    obtain ⟨made', same⟩ := Kernel.get_eq_some.mp set'
    cases same
    change id' + 1 = s.kernel.made at made'
    obtain rfl : id' = id := by omega
    by_cases its : q = p
    · rw [its, Function.update_self] at here
      exact set0 id' here
    · rw [Function.update_of_ne its] at here
      exact kept q its here
  · rintro k'' ⟨⟩
    exact total

/-- A process does operations with undo. -/
theorem Whole.semop (whole : Whole v s) {k k' : Values Pid Member} {ops : List (Sembuf Member)}
    (set : s.kernel.get id = some k) (undo : ∀ b ∈ ops, b.undo = true ∨ b.op = 0)
    (done : k.semop p ops = .ok k') (ids : ∀ id' ∈ x.point.ids, id' = id)
    (initval : ∀ w, x.point.initval = some w → w = v) (set0 : ∀ id', x.point ≠ .createSet1 id') :
    Whole v ((s.setLive (some k')).setProc p x) := by
  have total (i : Member) := Values.total_semop undo done i
  refine whole.change set (fun q other => ?_) ids initval (fun id' here => absurd here (set0 id'))
    (fun q _ here => ?_) ?_
  · rw [(Values.semop_spec undo done).2 q other]
  · rw [total]
    exact whole.set0 q id k here set
  · rw [total, total]
    exact whole.total k (Kernel.get_eq_some.mp set).2

/-- What a process has taken is there again when it ends. -/
theorem Whole.exit (whole : Whole v s) (inv : Inv s) (returning : s.Returning p) :
    Whole v (s.exit p) := by
  have there (id : Nat) : (s.exit p).kernel.get id = (s.kernel.get id).map fun k => k.exit p := by
    rw [Kernel.get, Kernel.get]
    change (if id + 1 = s.kernel.made then s.kernel.live.map _ else none) = _
    split <;> rfl
  have total0 (k : Values Pid Member) (live : s.kernel.live = some k) :
      (k.exit p).total 0 = k.total 0 :=
    Values.total_exit (by have := (returning k live).1; omega) (returning k live).2
  refine ⟨fun q w => ?_, fun q id => ?_, fun q id k => ?_, ?_⟩
  · change (Function.update s.procs p ⟨[], .idle⟩ q).point.initval = some w → w = v
    by_cases its : q = p
    · rw [its, Function.update_self]
      simp
    · rw [Function.update_of_ne its]
      exact whole.initval q w
  · change id ∈ (Function.update s.procs p ⟨[], .idle⟩ q).point.ids →
      (s.exit p).kernel.get id = none → ∀ k,
      s.kernel.live.map (fun k => k.exit p) = some k → _
    rw [there, Option.map_eq_none_iff]
    by_cases its : q = p
    · rw [its, Function.update_self]
      exact fun member => absurd member (by simp)
    · rw [Function.update_of_ne its]
      intro member stale k live
      obtain ⟨k', live', rfl⟩ := Option.map_eq_some_iff.mp live
      have other : (k'.exit p).adj q = k'.adj q := Function.update_of_ne its _ _
      rw [other]
      exact whole.stale q id member stale k' live'
  · change (Function.update s.procs p ⟨[], .idle⟩ q).point = .createSet1 id →
      (s.exit p).kernel.get id = some k → _
    rw [there]
    by_cases its : q = p
    · rw [its, Function.update_self]
      simp
    · rw [Function.update_of_ne its]
      intro here set
      obtain ⟨k', set', rfl⟩ := Option.map_eq_some_iff.mp set
      rw [total0 k' (Kernel.get_eq_some.mp set').2]
      exact whole.set0 q id k' here set'
  · intro k live full
    obtain ⟨k', live', rfl⟩ := Option.map_eq_some_iff.mp live
    have made := inv.made (by rw [live']; rfl)
    have sound := inv.sound (s.kernel.made - 1) k' (Kernel.get_eq_some.mpr ⟨by omega, live'⟩)
    rw [total0 k' live']
    refine whole.total k' live' ?_
    rwa [← Values.total_exit (p := p) (by rw [sound.users p]; omega) (sound.room1 p)]

/-- A process whose call fails has nothing to give back. -/
theorem Whole.fails (whole : Whole v s) (inv : Inv s) (ids : id ∈ (s.procs p).point.ids)
    (stale : s.kernel.get id = none) : Whole v (s.exit p) := by
  refine whole.exit inv fun k live => ?_
  have nothing := whole.stale p id ids stale k live
  have room := k.le 0
  rw [nothing]
  exact ⟨le_rfl, by omega⟩

theorem Whole.semctl (whole : Whole v s) (inv : Inv s) (ids : id ∈ (s.procs p).point.ids)
    {does : Values Pid Member → State Pid}
    (set : ∀ k, s.kernel.get id = some k → Whole v (does k)) :
    Whole v (s.semctl p id does) := by
  rw [State.semctl]
  cases there : s.kernel.get id with
  | none => exact whole.fails inv ids there
  | some k => exact set k there

omit [DecidableEq Pid] in
theorem Whole.create (whole : Whole v s) (inv : Inv s) : Whole v { s with kernel :=
  s.kernel.create.1 } := by
  rw [Kernel.create]
  cases live : s.kernel.live with
  | some k => exact whole
  | none =>
    refine ⟨whole.initval, fun p id _ _ k same => ?_, fun p id k here set => ?_,
      fun k same full => ?_⟩
    · cases same
      rfl
    · -- its id is older than the new set
      have known :=
        (inv.fine p).known id
        (List.mem_append_right _ (by rw [here]; exact List.mem_singleton_self id))
      have new := (Kernel.get_eq_some.mp set).1
      change id + 1 = s.kernel.made + 1 at new
      omega
    · cases same
      rw [Values.total_zero] at full
      cases full

omit [DecidableEq Pid] in
/-- The set that `semget` answers with is there. -/
theorem create_get (inv : Inv s) : (s.kernel.create.1.get s.kernel.create.2).isSome := by
  rw [Kernel.create]
  cases live : s.kernel.live with
  | some k =>
    have made := inv.made (by rw [live]; rfl)
    dsimp only
    rw [Kernel.get_eq_some.mpr ⟨by omega, live⟩]
    rfl
  | none =>
    dsimp only
    rw [Kernel.get_eq_some.mpr ⟨rfl, rfl⟩]
    rfl

theorem Whole.call (whole : Whole v s) {request : Request} (inv : Inv s)
    (returns : Returns v s (.call p request)) (called : s.call p request = some t) : Whole v t := by
  cases request with
  | create initval =>
    obtain rfl := Option.some.inj called
    refine whole.move (fun w same => ?_) (by simp) (by simp)
    cases same
    exact returns
  | open_ =>
    obtain rfl := Option.some.inj called
    exact whole.move (by simp) (by simp) (by simp)
  | op id value =>
    rw [State.call] at called
    split at called
    next has =>
      obtain rfl := Option.some.inj called
      split
      next nothing => exact whole.exit inv (returns nothing)
      next =>
        refine whole.move (by simp) (fun id' member => .inr ?_) (by simp)
        rw [List.mem_singleton.mp member]
        refine (inv.fine p).used id ?_
        have := List.count_pos_iff.mpr has
        rw [Proc.uses]
        omega
    next => cases called
  | close id =>
    rw [State.call] at called
    split at called
    next has =>
      obtain rfl := Option.some.inj called
      refine whole.move (by simp) (fun id' member => .inr ?_) (by simp)
      rw [List.mem_singleton.mp member]
      refine (inv.fine p).used id ?_
      have := List.count_pos_iff.mpr has
      rw [Proc.uses]
      omega
    next => cases called
  | rm id =>
    obtain rfl := Option.some.inj called
    exact whole.move (by simp) (by simp) (by simp)

/-- A process tries operations with undo. -/
theorem Whole.tries (whole : Whole v s) (inv : Inv s) (returns : s.Exceeds p → s.Returning p)
    {point : Point} (at_ : (s.procs p).point = point) {ops : List (Sembuf Member)} {asleep : Bool}
    {sleeps : Point} {done : Proc} {invalid : State Pid} (tried : point.ops = some (id, ops))
    (ids : point.ids = [id]) (undo : ∀ b ∈ ops, b.undo = true ∨ b.op = 0)
    (does : s.semop p id ops asleep sleeps done invalid = some t)
    (fails : s.kernel.get id = none → Whole v invalid) (sleepsIds : sleeps.ids = [id])
    (sleepsInitval : ∀ w, sleeps.initval = some w → w = v)
    (sleepsSet0 : ∀ id', sleeps ≠ .createSet1 id') (doneIds : ∀ id' ∈ done.point.ids, id' = id)
    (doneInitval : ∀ w, done.point.initval = some w → w = v)
    (doneSet0 : ∀ id', done.point ≠ .createSet1 id') :
    Whole v t := by
  rcases State.semop_cases does
    with ⟨stale, rfl⟩ | ⟨k, set, ⟨k', success, rfl⟩ | rfl | ⟨beyond, rfl⟩⟩
  · exact fails stale
  · exact whole.semop set undo success doneIds doneInitval doneSet0
  · refine whole.move sleepsInitval (fun id' member => .inl ?_) sleepsSet0
    rw [at_, ids, ← sleepsIds]
    exact member
  · exact whole.exit inv (returns (State.exceeds (by rw [at_]; exact tried) set beyond))

/-- A process tries the last operations of a call. -/
theorem Whole.finishes (whole : Whole v s) (inv : Inv s) (returns : s.Exceeds p → s.Returning p)
    {point : Point} (at_ : (s.procs p).point = point) {ops : List (Sembuf Member)} {asleep : Bool}
    {sleeps : Point} {done : Proc} (tried : point.ops = some (id, ops)) (ids : point.ids = [id])
    (undo : ∀ b ∈ ops, b.undo = true ∨ b.op = 0)
    (does : s.semop p id ops asleep sleeps done (s.exit p) = some t)
    (sleepsIds : sleeps.ids = [id]) (sleepsInitval : ∀ w, sleeps.initval = some w → w = v)
    (sleepsSet0 : ∀ id', sleeps ≠ .createSet1 id') (doneIds : ∀ id' ∈ done.point.ids, id' = id)
    (doneInitval : ∀ w, done.point.initval = some w → w = v)
    (doneSet0 : ∀ id', done.point ≠ .createSet1 id') : Whole v t :=
  whole.tries inv returns at_ tried ids undo does
    (fun stale => whole.fails inv (by rw [at_, ids]; exact List.mem_singleton_self id) stale)
    sleepsIds sleepsInitval sleepsSet0 doneIds doneInitval doneSet0

/-! ### `sem_create` -/

theorem Whole.createLock (whole : Whole v s) (inv : Inv s) (returns : s.Exceeds p → s.Returning p)
    {w : Int} {asleep : Bool} (at_ : (s.procs p).point = .createLock w id asleep)
    (goes : s.go p (.createLock w id asleep) = some t) : Whole v t := by
  have initval := whole.initval p
  rw [at_] at initval
  refine whole.tries inv returns at_ rfl rfl (by decide) goes (fun stale => ?_) rfl
    initval (by simp)
    (fun id' member => List.mem_singleton.mp member) initval (by simp)
  split
  · exact whole.fails inv (by rw [at_]; exact List.mem_singleton_self id) stale
  · exact whole.move initval (by simp) (by simp)

theorem Whole.createCount (whole : Whole v s) (inv : Inv s) {w : Int}
    (at_ : (s.procs p).point = .createCount w id) (goes : s.go p (.createCount w id) = some t) :
    Whole v t := by
  have initval := whole.initval p
  rw [at_] at initval
  obtain rfl := Option.some.inj goes
  refine whole.semctl inv (by rw [at_]; exact List.mem_singleton_self id) fun k set => ?_
  split
  · exact whole.move initval (fun id' member => .inl (by rw [at_]; exact member)) (by simp)
  · exact whole.move (by simp) (fun id' member => .inl (by rw [at_]; exact member)) (by simp)

theorem Whole.createSet0 (whole : Whole v s) (inv : Inv s) {w : Int}
    (at_ : (s.procs p).point = .createSet0 w id) (goes : s.go p (.createSet0 w id) = some t) :
    Whole v t := by
  have initval := whole.initval p
  rw [at_] at initval
  obtain rfl := Option.some.inj goes
  refine whole.semctl inv (by rw [at_]; exact List.mem_singleton_self id) fun k set => ?_
  obtain rfl := initval w rfl
  -- nobody has anything to give back to a set that is not initialised
  have sound := inv.sound id k set
  have none_ : ∀ q, k.adj q 0 = 0 := by
    rcases sound.count with ⟨-, none_⟩ | full
    · exact none_
    · exact absurd (sound.fresh p (by rw [at_]; rfl)) (not_new full)
  split
  next small =>
    have total : (k.setval 0 w.toNat small.2).total 0 = w := by
      rw [Values.total_setval]
      omega
    refine whole.change set (fun q _ => ?_)
      (fun id' member => List.mem_singleton.mp member) (by simp)
      (fun _ _ => total) (fun _ _ _ => total) fun _ => total
    rw [none_ q, Values.adj_setval_self]
  next =>
    refine whole.exit inv fun k' live => ?_
    have same := (Kernel.get_eq_some.mp set).2
    rw [live] at same
    cases same
    have room := k.le 0
    rw [none_ p]
    exact ⟨le_rfl, by omega⟩

theorem Whole.createSet1 (whole : Whole v s) (inv : Inv s)
    (at_ : (s.procs p).point = .createSet1 id) (goes : s.go p (.createSet1 id) = some t) :
    Whole v t := by
  obtain rfl := Option.some.inj goes
  refine whole.semctl inv (by rw [at_]; exact List.mem_singleton_self id) fun k set => ?_
  have same : (k.setval 1 bigcount bigcount_le).total 0 = v :=
    (Values.total_setval_other (by decide) _).trans (whole.set0 p id k at_ set)
  exact whole.change set (fun q _ => Values.adj_setval_other k (by decide) _ _ q)
    (fun id' member => List.mem_singleton.mp member) (by simp) (by simp) (fun _ _ _ => same)
    fun _ => same

/-! ### `sem_open` and `sem_close` -/

theorem Whole.opening (whole : Whole v s) (inv : Inv s) (goes : s.go p .opening = some t) :
    Whole v t := by
  rw [State.go] at goes
  split at goes
  · obtain rfl := Option.some.inj goes
    exact whole.move (by simp) (by simp) (by simp)
  next k live =>
    obtain rfl := Option.some.inj goes
    have made := inv.made (by rw [live]; rfl)
    refine whole.move (by simp) (fun id' member => .inr ?_) (by simp)
    rw [List.mem_singleton.mp member, Kernel.get_eq_some.mpr ⟨by omega, live⟩]
    rfl

theorem Whole.closeCount (whole : Whole v s) (inv : Inv s)
    (at_ : (s.procs p).point = .closeCount id) (goes : s.go p (.closeCount id) = some t) :
    Whole v t := by
  obtain rfl := Option.some.inj goes
  refine whole.semctl inv (by rw [at_]; exact List.mem_singleton_self id) fun k set => ?_
  split
  next more =>
    -- the counter is never more than it began with
    have sound := inv.sound id k set
    have sum := sound.val_one
    rw [← Nat.cast_sum] at sum
    rcases sound.count with ⟨new, -⟩ | full <;> omega
  next =>
    split
    · exact whole.move (by simp) (fun id' member => .inl (by rw [at_]; exact member)) (by simp)
    · exact whole.move (by simp) (fun id' member => .inl (by rw [at_]; exact member)) (by simp)

/-- The units are gone with the set. -/
theorem Whole.closeRm (whole : Whole v s) (inv : Inv s) (at_ : (s.procs p).point = .closeRm id)
    (goes : s.go p (.closeRm id) = some t) : Whole v t := by
  obtain rfl := Option.some.inj goes
  refine whole.semctl inv (by rw [at_]; exact List.mem_singleton_self id) fun k set => ?_
  refine ⟨fun q w => ?_, fun _ _ _ _ _ live => ?_, fun q id' k' _ set' => ?_, fun _ live => ?_⟩
  · change (Function.update s.procs p { s.procs p with point := .idle } q).point.initval =
      some w → w = v
    by_cases its : q = p
    · rw [its, Function.update_self]
      simp
    · rw [Function.update_of_ne its]
      exact whole.initval q w
  · cases live
  · have nothing := (Kernel.get_eq_some.mp set').2
    cases nothing
  · cases live

/-! ### Every step -/

theorem Whole.go (whole : Whole v s) (inv : Inv s) (careful : Careful s (.go p))
    (returns : Returns v s (.go p)) (goes : s.go p (s.procs p).point = some t) : Whole v t := by
  rw [Careful] at careful
  rw [Returns] at returns
  cases at_ : (s.procs p).point with
  | idle =>
    rw [at_] at goes
    cases goes
  | creating w =>
    have initval := whole.initval p
    rw [at_] at goes initval
    obtain rfl := Option.some.inj goes
    refine Whole.move (p := p) (whole.create inv) initval (fun id member => .inr ?_) (by simp)
    rw [List.mem_singleton.mp member]
    exact create_get inv
  | createLock w id asleep => exact whole.createLock inv returns at_ (by rwa [at_] at goes)
  | createCount w id => exact whole.createCount inv at_ (by rwa [at_] at goes)
  | createSet0 w id => exact whole.createSet0 inv at_ (by rwa [at_] at goes)
  | createSet1 id => exact whole.createSet1 inv at_ (by rwa [at_] at goes)
  | createEnd id asleep =>
    rw [at_] at goes
    exact whole.finishes inv returns at_ rfl rfl (by decide) goes rfl (by simp) (by simp)
      (by simp) (by simp)
      (by simp)
  | opening => exact whole.opening inv (by rwa [at_] at goes)
  | openDec id asleep =>
    rw [at_] at goes
    exact whole.finishes inv returns at_ rfl rfl (by decide) goes rfl (by simp) (by simp)
      (by simp) (by simp)
      (by simp)
  | operating id value asleep =>
    rw [at_] at goes
    exact whole.finishes inv returns at_ rfl rfl (by simp [opOp]) goes rfl (by simp) (by simp)
      (by simp) (by simp)
      (by simp)
  | closeLock id asleep =>
    rw [at_] at goes
    exact whole.finishes inv returns at_ rfl rfl (by decide) goes rfl (by simp) (by simp)
      (fun id' member => List.mem_singleton.mp member) (by simp) (by simp)
  | closeCount id => exact whole.closeCount inv at_ (by rwa [at_] at goes)
  | closeRm id => exact whole.closeRm inv at_ (by rwa [at_] at goes)
  | closeUnlock id asleep =>
    rw [at_] at goes
    exact whole.finishes inv returns at_ rfl rfl (by decide) goes rfl (by simp) (by simp)
      (by simp) (by simp)
      (by simp)
  | removing id =>
    rw [at_] at careful
    exact careful.elim

theorem Whole.step (whole : Whole v s) (inv : Inv s) {label : Label Pid} (careful : Careful s label)
    (returns : Returns v s label) (steps : step s label = some t) : Whole v t := by
  cases label with
  | call p request =>
    rw [Semaph.step] at steps
    split at steps
    · exact whole.call inv returns steps
    · cases steps
  | exit p =>
    obtain rfl := Option.some.inj steps
    exact whole.exit inv returns
  | go p => exact whole.go inv careful returns steps

/-! ### Runs -/

/-- **No unit is lost or made**: in every careful run in which all create the semaphore with the
same value, and nobody ends that has given more than it has taken or more than finds room, what
`[0]` holds and what the processes have taken is that value. -/
theorem units_conserved (v : Int) (labels : List (Label Pid))
    (each : EachStep step (fun s label => Careful s label ∧ Returns v s label) State.init labels) :
    Throughout step (Conserved v) State.init labels := by
  refine throughout_of_invariant (I := fun s : State Pid => Inv s ∧ Whole v s)
    (fun s label t both meets steps =>
      ⟨both.1.step meets.1 steps, both.2.step both.1 meets.1 meets.2 steps⟩)
    (fun s both p id k uses set => ?_) State.init labels ⟨inv_init,
      ⟨by simp [State.init], fun p id member => ?_, by simp [State.init],
        by simp [State.init]⟩⟩ each
  · exact both.2.total k (Kernel.get_eq_some.mp set).2 ((both.1.sound id k set).full uses)
  · exact absurd member List.not_mem_nil

/-- Three units: one process takes two of them and ends, and another one takes all three. -/
theorem units_conserved_crash :
    let labels : List (Label Bool) :=
      [.call false (.create 3), .go false, .go false, .go false, .go false, .go false,
      .go false, .call true (.create 3), .go true, .go true, .go true, .go true,
        .call true (.op 0 (-2)), .go true,
      .call false (.op 0 (-3)), .go false, .exit true, .go false, .call false (.op 0 3), .go false]
    (labels.foldlM step State.init).isSome ∧ Throughout step (Conserved 3) State.init labels := by
  refine ⟨by decide, units_conserved 3 _ (by decide)⟩

end Apue.Semaph
