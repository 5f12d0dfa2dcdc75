import MyStudy.Lib.FileMachine
import MyStudy.Lib.FileOwners

/-!
# Services on shared files

A call locks a resource of its own, does what it has to do, and gives it back; on its way it may
lock others. If that is what the triples of the calls say, then every call takes effect when it
unlocks its own resource, and the histories of any number of processes are linearizable.
-/

namespace FileProgram

open Linearizability Separation

variable {File Pid Res E Call Reply σ δ : Type}

/-! ### Locks on resources -/

section Locks

variable [DecidableEq File] [DecidableEq Res] {P : Protocol File Res}

/-- The lock on a resource. -/
def lockOf (P : Protocol File Res) (locks : ByteLocks File) (r : Res) : Option LockKind :=
  locks (P.range r).file (P.range r).start

theorem lockOf_lock (locks : ByteLocks File) (r r' : Res) (kind : LockKind) :
    lockOf P ((Op.lock (P.range r) kind).byteLocks locks) r' =
      if r = r' then some kind else lockOf P locks r' := by
  rw [lockOf, Op.byteLocks]
  exact if_congr (P.separate r' r) rfl rfl

theorem lockOf_unlock (locks : ByteLocks File) (r r' : Res) :
    lockOf P ((Op.unlock (P.range r)).byteLocks locks) r' =
      if r = r' then none else lockOf P locks r' := by
  rw [lockOf, Op.byteLocks]
  exact if_congr (P.separate r' r) rfl rfl

omit [DecidableEq File] [DecidableEq Res] in
theorem Op.Granted.admits {locks : Pid → ByteLocks File} {p q : Pid} {r : Res} {kind : LockKind}
    (granted : (Op.lock (P.range r) kind).Granted locks p) (other : q ≠ p) :
    kind.Admits (lockOf P (locks q) r) :=
  granted q other (P.range r).start ((P.separate r r).mpr rfl)

/-- These resources are locked, and no others. -/
def Locked (P : Protocol File Res) (locks : ByteLocks File) (L : List Res) (kind : LockKind) :
    Prop :=
  ∀ r, lockOf P locks r = if r ∈ L then some kind else none

variable {locks : ByteLocks File} {L : List Res} {kind kind' : LockKind}

omit [DecidableEq File] in
theorem Locked.nothing (locked : Locked P locks [] kind) : Locked P locks [] kind' := by
  intro r
  rw [locked r, if_neg List.not_mem_nil, if_neg List.not_mem_nil]

omit [DecidableEq File] in
theorem Locked.free (locked : Locked P locks [] kind) (r : Res) : lockOf P locks r = none :=
  (locked r).trans (if_neg List.not_mem_nil)

omit [DecidableEq File] in
theorem Locked.here (locked : Locked P locks L kind) {r : Res} (member : r ∈ L) :
    lockOf P locks r = some kind :=
  (locked r).trans (if_pos member)

theorem Locked.lock (locked : Locked P locks L kind) (r : Res) :
    Locked P ((Op.lock (P.range r) kind).byteLocks locks) (r :: L) kind := by
  intro r'
  rw [lockOf_lock, locked r']
  by_cases same : r = r'
  · rw [if_pos same, if_pos (by simp [same])]
  · simp [same, Ne.symm same]

theorem Locked.unlock (locked : Locked P locks L kind) (once : L.Nodup) (r : Res) :
    Locked P ((Op.unlock (P.range r)).byteLocks locks) (L.erase r) kind := by
  intro r'
  rw [lockOf_unlock, locked r']
  by_cases same : r = r'
  · rw [if_pos same, if_neg (by rw [← same]; exact once.not_mem_erase)]
  · rw [if_neg same]
    exact if_congr (List.mem_erase_of_ne (Ne.symm same)).symm rfl rfl

end Locks

/-! ### Services -/

/-- Calls of an object whose state is in the resources, and what their triples say: what a resource
that nobody has locked contains when the object has a state, and how a call, its own resource being
locked with some contents, goes on. -/
structure Service (P : Protocol File Res) [DecidableEq File] [DecidableEq Res]
    (E Call Reply σ δ : Type) where
  apply : Call → σ → Reply × σ
  body : Call → δ → Prog File E (Reply × δ)
  main : Call → Res
  kind : Call → LockKind
  rel : (r : Res) → P.Content r → σ → Prop
  know : Know P
  mode : (c : Call) → P.Content (main c) → Mode P
  answer : (c : Call) → P.Content (main c) → Reply
  known : ∀ r x s, rel r x s → know r x
  answers : ∀ c x s, rel (main c) x s → (apply c s).1 = answer c x
  reads : ∀ c s, kind c = .read → (apply c s).2 = s
  shared : ∀ c x, (mode c x).alone = false
  quiet : ∀ c x, kind c = .read → (mode c x).writes = false
  others : ∀ c x r, (mode c x).lockable r → r ≠ main c
  frame : ∀ c r x s, r ≠ main c → rel r x s → rel r x (apply c s).2
  leaves : ∀ c x y s, kind c = .write → rel (main c) x s → (mode c x).allowed (main c) y →
    rel (main c) y (apply c s).2
  passes : ∀ c x r y s, r ≠ main c → (mode c x).allowed r y → rel r y s
  begins : ∀ c d, (∃ why, body c d = .stop why) ∨
    ∃ next, body c d = .op (.lock (P.range (main c)) (kind c)) next ∧
    ∀ x s, rel (main c) x s →
    Triple (mode c x) know [main c] (P.holds (main c) x) (next ()) fun a _ L _ =>
      a.1 = answer c x ∧ L = []

namespace Service

section Invariant

variable [DecidableEq File] [DecidableEq Pid] [DecidableEq Res] {P : Protocol File Res}
variable (S : Service P E Call Reply σ δ)

/-- How a call ends. -/
def Done (c : Call) (x : P.Content (S.main c)) (a : Reply × δ) (_ : Know P) (L : List Res)
    (_ : FileHeap File) :
    Prop :=
  a.1 = S.answer c x ∧ L = []

/-- Where a call is that has locked these resources for writing. -/
def Stands (s : σ) (i : Nat) (c : Call) (x : P.Content (S.main c)) (L : List Res)
    (status : Status Call Reply) :
    Prop :=
  if S.main c ∈ L then S.kind c = .write ∧ S.rel (S.main c) x s ∧ status = .called i c
  else status = .done i (S.answer c x)

/-- What a process has locked and owns, and how far its call is. -/
inductive TaskOk (own : Owners File Pid Res) (files : Files File) (s : σ) (p : Pid)
    (locks : ByteLocks File) :
    Task File E Reply δ → Status Call Reply → Prop
  | idle (d : δ) (empty : share own files (.proc p) = Heap.empty)
      (locked : Locked P locks [] .write) :
    TaskOk own files s p locks (.idle d) .idle
  | waiting (i : Nat) (c : Call) (d : δ) (prog : Prog File E (Reply × δ))
      (begins : prog = S.body c d)
      (empty : share own files (.proc p) = Heap.empty) (locked : Locked P locks [] .write) :
    TaskOk own files s p locks (.running prog) (.called i c)
  | reading (i : Nat) (c : Call) (x : P.Content (S.main c)) (prog : Prog File E (Reply × δ))
      (kind : S.kind c = .read) (empty : share own files (.proc p) = Heap.empty)
      (locked : Locked P locks [S.main c] .read) (related : S.rel (S.main c) x s)
      (does : wp (S.mode c x) prog S.know [S.main c] (share own files (.res (S.main c)))
        (S.Done c x)) :
    TaskOk own files s p locks (.running prog) (.called i c)
  | owning (i : Nat) (c : Call) (x : P.Content (S.main c)) (prog : Prog File E (Reply × δ))
      (L : List Res)
      (status : Status Call Reply) (once : L.Nodup) (locked : Locked P locks L .write)
      (here : S.Stands s i c x L status)
      (does : wp (S.mode c x) prog S.know L (share own files (.proc p)) (S.Done c x)) :
    TaskOk own files s p locks (.running prog) status

/-- What is locked for writing is owned by its process; what is not holds contents that fit to the
state. -/
structure ResourcesOk (own : Owners File Pid Res) (files : Files File) (s : σ)
    (locks : Pid → ByteLocks File) :
    Prop where
  apart : ∀ p q r, q ≠ p → lockOf P (locks p) r = some .write → lockOf P (locks q) r = none
  taken : ∀ p r, lockOf P (locks p) r = some .write → ∀ x, own x ≠ .res r
  kept : ∀ r, (∀ p, lockOf P (locks p) r ≠ some .write) →
    ∃ x, S.rel r x s ∧ P.holds r x (share own files (.res r))

structure Inv (own : Owners File Pid Res) (g : Machine File E Pid Reply δ)
    (spec : Spec Pid Call Reply σ) : Prop where
  resources : S.ResourcesOk own g.files spec.state g.locks
  tasks : ∀ p, S.TaskOk own g.files spec.state p (g.locks p) (g.tasks p) (spec.status p)

variable {S} {own own' : Owners File Pid Res} {files files' : Files File} {s s' : σ} {p : Pid}
  {locks : Pid → ByteLocks File}

/-- A process whose share stays the same, as far as it has locked something. -/
theorem TaskOk.frame {locks : ByteLocks File} {task : Task File E Reply δ}
    {status : Status Call Reply}
    (ok : S.TaskOk own files s p locks task status)
    (mine : share own' files' (.proc p) = share own files (.proc p))
    (seen : ∀ r, lockOf P locks r = some .read →
      share own' files' (.res r) = share own files (.res r))
    (related : ∀ r x, lockOf P locks r ≠ none → S.rel r x s → S.rel r x s') :
    S.TaskOk own' files' s' p locks task status := by
  cases ok with
  | idle d empty locked => exact .idle d (mine.trans empty) locked
  | waiting i c d prog begins empty locked =>
    exact .waiting i c d prog begins (mine.trans empty) locked
  | reading i c x prog kind empty locked here does =>
    have lock := locked.here (List.mem_singleton_self _)
    refine .reading i c x prog kind (mine.trans empty) locked (related _ x (by simp [lock]) here) ?_
    rwa [seen _ lock]
  | owning i c x prog L status once locked here does =>
    refine .owning i c x prog L status once locked ?_ (by rwa [mine])
    rw [Stands] at here ⊢
    split at here
    next held =>
      rw [if_pos held]
      exact ⟨here.1, related _ x (by simp [locked.here held]) here.2.1, here.2.2⟩
    next given =>
      rw [if_neg given]
      exact here

/-! ### What happens to the resources -/

theorem ResourcesOk.same (ok : S.ResourcesOk own files s locks)
    (res : ∀ x r, own' x = .res r ↔ own x = .res r)
    (shares : ∀ r, share own' files' (.res r) = share own files (.res r)) :
    S.ResourcesOk own' files' s locks := by
  refine ⟨ok.apart, fun p r held x here => ok.taken p r held x ((res x r).mp here),
    fun r free => ?_⟩
  rw [shares r]
  exact ok.kept r free

theorem lockOf_locked (q : Pid) (r r' : Res) (kind : LockKind) :
    lockOf P (Function.update locks p ((Op.lock (P.range r) kind).byteLocks (locks p)) q) r' =
      if q = p ∧ r = r' then some kind else lockOf P (locks q) r' := by
  by_cases same : q = p
  · subst same
    rw [Function.update_self, lockOf_lock]
    simp
  · rw [Function.update_of_ne same, if_neg fun both => same both.1]

theorem lockOf_unlocked (q : Pid) (r r' : Res) :
    lockOf P (Function.update locks p ((Op.unlock (P.range r)).byteLocks (locks p)) q) r' =
      if q = p ∧ r = r' then none else lockOf P (locks q) r' := by
  by_cases same : q = p
  · subst same
    rw [Function.update_self, lockOf_unlock]
    simp
  · rw [Function.update_of_ne same, if_neg fun both => same both.1]

variable {r : Res}

/-- One locks a resource for writing. -/
theorem ResourcesOk.lock (ok : S.ResourcesOk own files s locks)
    (granted : (Op.lock (P.range r) .write).Granted locks p) :
    S.ResourcesOk (take own r (.proc p)) files s
      (Function.update locks p ((Op.lock (P.range r) .write).byteLocks (locks p))) := by
  have free (q : Pid) (other : q ≠ p) : lockOf P (locks q) r = none := granted.admits other
  refine ⟨fun q q' r' other held => ?_, fun q r' held x => ?_, fun r' free' => ?_⟩
  · rw [lockOf_locked] at held ⊢
    split at held
    next new =>
      rw [if_neg fun both => other (both.1.trans new.1.symm), ← new.2]
      exact free q' fun same => other (same.trans new.1.symm)
    next old =>
      rw [if_neg]
      · exact ok.apart q q' r' other held
      · rintro ⟨rfl, rfl⟩
        rw [free q (Ne.symm other)] at held
        cases held
  · -- the bytes it has now are those of the one that took it
    rw [take]
    split
    · simp
    next elsewhere =>
      rw [lockOf_locked] at held
      split at held
      next new => rwa [← new.2]
      next old => exact ok.taken q r' held x
  · -- a resource that is still free is another one
    have other : r' ≠ r := by
      rintro rfl
      exact free' p ((lockOf_locked p r' r' .write).trans (if_pos ⟨rfl, rfl⟩))
    rw [share_take_other r (by simp) (by simpa using other)]
    refine ok.kept r' fun q => ?_
    have here := free' q
    rwa [lockOf_locked, if_neg fun both => other both.2.symm] at here

/-- One locks a resource for reading, and leaves it to those who read it, too. -/
theorem ResourcesOk.lock_read (ok : S.ResourcesOk own files s locks)
    (granted : (Op.lock (P.range r) .read).Granted locks p)
    (free : lockOf P (locks p) r ≠ some .write) :
    S.ResourcesOk own files s
      (Function.update locks p ((Op.lock (P.range r) .read).byteLocks (locks p))) ∧
      ∃ x, S.rel r x s ∧ P.holds r x (share own files (.res r)) := by
  have nobody (q : Pid) : lockOf P (locks q) r ≠ some .write := by
    by_cases same : q = p
    · rwa [same]
    · exact granted.admits same
  -- a lock for reading changes no lock for writing
  have same (q : Pid) (r' : Res) :
      lockOf P (Function.update locks p ((Op.lock (P.range r) .read).byteLocks (locks p)) q) r' =
        some .write ↔
        lockOf P (locks q) r' = some .write := by
    rw [lockOf_locked]
    split
    next new =>
      rw [← new.2]
      exact iff_of_false (by simp) (nobody q)
    · rfl
  refine ⟨⟨fun q q' r' other held => ?_, fun q r' held => ok.taken q r' ((same q r').mp held),
    fun r' free' => ok.kept r' fun q => (same q r').not.mp (free' q)⟩, ok.kept r nobody⟩
  have old := (same q r').mp held
  rw [lockOf_locked, if_neg]
  · exact ok.apart q q' r' other old
  · rintro ⟨-, rfl⟩
    exact nobody q old

/-- One unlocks a resource that it has changed. -/
theorem ResourcesOk.unlock (ok : S.ResourcesOk own files s locks)
    (held : lockOf P (locks p) r = some .write) {x : P.Content r} {a b : FileHeap File}
    (disjoint : Heap.Disjoint a b) (parts : share own files (.proc p) = Heap.union a b)
    (holds : P.holds r x a) (here : S.rel r x s')
    (related : ∀ r' x, r' ≠ r → S.rel r' x s → S.rel r' x s') :
    S.ResourcesOk (give own r a) files s'
      (Function.update locks p ((Op.unlock (P.range r)).byteLocks (locks p))) := by
  obtain ⟨given, -, others⟩ := share_give disjoint parts (by simp) (ok.taken p r held)
  -- who holds a lock for writing afterwards held it before, and on another resource
  have old (q : Pid) (r' : Res)
      (held' : lockOf P (Function.update locks p ((Op.unlock (P.range r)).byteLocks (locks p)) q)
        r' =
        some .write) : r' ≠ r ∧ lockOf P (locks q) r' = some .write := by
    rw [lockOf_unlocked] at held'
    split at held'
    · cases held'
    next still =>
      refine ⟨?_, held'⟩
      rintro rfl
      rw [ok.apart p q r' (fun same => still ⟨same, rfl⟩) held] at held'
      cases held'
  refine ⟨fun q q' r' other held' => ?_, fun q r' held' y => ?_, fun r' free => ?_⟩
  · rw [lockOf_unlocked]
    split
    · rfl
    · exact ok.apart q q' r' other (old q r' held').2
  · obtain ⟨other, held'⟩ := old q r' held'
    rw [give]
    split
    · exact ok.taken q r' held' y
    · simpa using Ne.symm other
  · -- what is given back meets the relation of the new state
    by_cases same : r' = r
    · subst same
      rw [given]
      exact ⟨x, here, holds⟩
    · rw [others _ (by simp) (by simpa using same)]
      obtain ⟨y, there, holds'⟩ := ok.kept r' fun q => by
        have free' := free q
        rwa [lockOf_unlocked, if_neg fun both => same both.2.symm] at free'
      exact ⟨y, related r' y same there, holds'⟩

/-- One unlocks a resource that it has only read. -/
theorem ResourcesOk.unlock_read (ok : S.ResourcesOk own files s locks)
    (free : lockOf P (locks p) r ≠ some .write) :
    S.ResourcesOk own files s
      (Function.update locks p ((Op.unlock (P.range r)).byteLocks (locks p))) := by
  have same (q : Pid) (r' : Res) :
      lockOf P (Function.update locks p ((Op.unlock (P.range r)).byteLocks (locks p)) q) r' =
        some .write ↔
        lockOf P (locks q) r' = some .write := by
    rw [lockOf_unlocked]
    split
    next old =>
      rw [old.1, ← old.2]
      exact iff_of_false (by simp) free
    · rfl
  refine ⟨fun q q' r' other held => ?_, fun q r' held => ok.taken q r' ((same q r').mp held),
    fun r' free' => ok.kept r' fun q => (same q r').not.mp (free' q)⟩
  rw [lockOf_unlocked]
  split
  · rfl
  · exact ok.apart q q' r' other ((same q r').mp held)

/-! ### Steps -/

variable {g : Machine File E Pid Reply δ} {spec spec' : Spec Pid Call Reply σ}

/-- One process has taken a step, and the others are where they were. -/
theorem Inv.update (inv : S.Inv own g spec) {mine : ByteLocks File} {task : Task File E Reply δ}
    (resources : S.ResourcesOk own' files' spec'.state (Function.update g.locks p mine))
    (here : S.TaskOk own' files' spec'.state p mine task (spec'.status p))
    (status : ∀ q, q ≠ p → spec'.status q = spec.status q)
    (shares : ∀ q, q ≠ p → share own' files' (.proc q) = share own g.files (.proc q))
    (seen : ∀ q, q ≠ p → ∀ r, lockOf P (g.locks q) r = some .read →
      share own' files' (.res r) = share own g.files (.res r))
    (related : ∀ q, q ≠ p → ∀ r x, lockOf P (g.locks q) r ≠ none → S.rel r x spec.state →
      S.rel r x spec'.state) :
    S.Inv own' ⟨files', Function.update g.locks p mine, Function.update g.tasks p task⟩ spec' := by
  refine ⟨resources, fun q => ?_⟩
  dsimp only
  by_cases same : q = p
  · subst same
    rwa [Function.update_self, Function.update_self]
  · rw [Function.update_of_ne same, Function.update_of_ne same, status q same]
    exact (inv.tasks q).frame (shares q same) (seen q same) (related q same)

/-- One process has changed its own share. -/
theorem Inv.update_own (inv : S.Inv own g spec) {task : Task File E Reply δ}
    (here : S.TaskOk own files' spec.state p (g.locks p) task (spec.status p))
    (shares : ∀ o, o ≠ .proc p → share own files' o = share own g.files o) :
    S.Inv own ⟨files', Function.update g.locks p (g.locks p),
      Function.update g.tasks p task⟩ spec := by
  refine inv.update ?_ here (fun _ _ => rfl) (fun q other => shares _ (by simpa using other))
    (fun q _ r _ => shares _ (by simp)) fun _ _ _ _ _ here => here
  rw [Function.update_eq_self]
  exact inv.resources.same (fun _ _ => Iff.rfl) fun r => shares _ (by simp)

/-- A call begins or ends: a process goes on to another task, with the locks that it has. -/
theorem Inv.update_task (inv : S.Inv own g spec) {task : Task File E Reply δ}
    {status : Status Call Reply} (h : History Pid Call Reply)
    (here : S.TaskOk own' g.files spec.state p (g.locks p) task status)
    (res : ∀ x r, own' x = .res r ↔ own x = .res r)
    (shares : ∀ o, o ≠ .proc p → o ≠ .nobody → share own' g.files o = share own g.files o) :
    S.Inv own' { g with tasks := Function.update g.tasks p task }
      { spec with
        history := h
        status := Function.update spec.status p status } := by
  refine ⟨inv.resources.same res fun r => shares _ (by simp) (by simp), fun q => ?_⟩
  dsimp only
  by_cases same : q = p
  · subst same
    rwa [Function.update_self, Function.update_self]
  · rw [Function.update_of_ne same, Function.update_of_ne same]
    exact (inv.tasks q).frame (shares _ (by simpa using same) (by simp))
      (fun r _ => shares _ (by simp) (by simp))
      fun _ _ _ here => here

variable (S) in
/-- The object can follow the machine. -/
def Follows (g : Machine File E Pid Reply δ) (spec : Spec Pid Call Reply σ)
    (e : Option (Event Pid Call Reply)) :
    Prop :=
  ∃ own spec', Relation.ReflTransGen (Spec.Step S.apply) spec spec' ∧
    spec'.history = spec.history ++ e.toList ∧ S.Inv own g spec'

theorem Inv.follows (inv : S.Inv own g spec) : S.Follows g spec none :=
  ⟨own, spec, .refl, (List.append_nil _).symm, inv⟩

/-- A call begins with the lock on its resource. -/
theorem Inv.begin (inv : S.Inv own g spec) {i : Nat} {c : Call} {d : δ} {o : Op File}
    {next : o.Result → Prog File E (Reply × δ)} (status : spec.status p = .called i c)
    (begins : .op o next = S.body c d) (empty : share own g.files (.proc p) = Heap.empty)
    (locked : Locked P (g.locks p) [] .write) (granted : o.Granted g.locks p) :
    S.Follows (g.perform p o next) spec none := by
  -- a call that stops takes no lock
  rcases S.begins c d with ⟨why, stops⟩ | ⟨next', starts, does⟩
  · rw [stops] at begins
    cases begins
  rw [starts] at begins
  cases begins
  have free : lockOf P (g.locks p) (S.main c) = none := locked.free _
  cases kind : S.kind c with
  | read =>
    rw [kind] at granted
    obtain ⟨resources, x, related, holds⟩ := inv.resources.lock_read granted (by simp [free])
    refine (inv.update resources ?_ (fun _ _ => rfl) (fun _ _ => rfl) (fun _ _ _ _ => rfl)
      fun _ _ _ _ _ here => here).follows
    rw [status]
    exact .reading i c x _ kind empty (locked.nothing.lock _) related (does x _ related _ holds)
  | write =>
    rw [kind] at granted
    -- the lock is granted, so the resource is held by nobody
    have nobody (q : Pid) : lockOf P (g.locks q) (S.main c) ≠ some .write := by
      by_cases same : q = p
      · simp [same, free]
      · have admits : lockOf P (g.locks q) (S.main c) = none := granted.admits same
        simp [admits]
    obtain ⟨x, related, holds⟩ := inv.resources.kept _ nobody
    have mine : share (take own (S.main c) (.proc p)) g.files (.proc p) =
        share own g.files (.res (S.main c)) := by
      rw [share_take_self _ (by simp), empty, Heap.union_empty]
    refine (inv.update (inv.resources.lock granted) ?_ (fun _ _ => rfl)
      (fun q other => share_take_other _ (by simpa using other) (by simp))
      (fun q other r read => ?_)
      fun _ _ _ _ _ here => here).follows
    · refine .owning i c x _ [S.main c] _ (List.nodup_singleton _) (locked.lock _) ?_ ?_
      · rw [Stands, if_pos (List.mem_singleton_self _)]
        exact ⟨kind, related, status⟩
      · rw [mine]
        exact does x _ related _ holds
    · refine share_take_other _ (by simp) ?_
      rintro same
      cases same
      have admits : lockOf P (g.locks q) (S.main c) = none := granted.admits other
      rw [admits] at read
      cases read

omit [DecidableEq File] [DecidableEq Pid] [DecidableEq Res] in
/-- Nobody has locked for reading what another one locks for writing. -/
theorem other_of_granted {r r' : Res} {q : Pid}
    (granted : (Op.lock (P.range r) .write).Granted g.locks p) (other : q ≠ p)
    (read : lockOf P (g.locks q) r' = some .read) : r' ≠ r := by
  rintro rfl
  have admits : lockOf P (g.locks q) r' = none := granted.admits other
  rw [admits] at read
  cases read

section Owning

variable {i : Nat} {c : Call} {x : P.Content (S.main c)} {L : List Res} {status : Status Call Reply}

/-- A call locks another resource on its way. -/
theorem Inv.owning_lock (inv : S.Inv own g spec) {range : Range File} {kind : LockKind}
    {next : Unit → Prog File E (Reply × δ)} (once : L.Nodup)
    (locked : Locked P (g.locks p) L .write)
    (here : S.Stands spec.state i c x L (spec.status p))
    (does : wp (S.mode c x) (.op (.lock range kind) next) S.know L (share own g.files (.proc p))
      (S.Done c x))
    (granted : (Op.lock range kind).Granted g.locks p) :
    S.Follows (g.perform p (.lock range kind) next) spec none := by
  obtain ⟨r, rfl, rfl, -, lockable, free, does⟩ := does
  have nobody (q : Pid) : lockOf P (g.locks q) r ≠ some .write := by
    by_cases same : q = p
    · simp [same, locked r, free]
    · have admits : lockOf P (g.locks q) r = none := granted.admits same
      simp [admits]
  obtain ⟨y, related, holds⟩ := inv.resources.kept r nobody
  refine (inv.update (inv.resources.lock granted) ?_ (fun _ _ => rfl)
    (fun q other => share_take_other _ (by simpa using other) (by simp)) (fun q other r' read => ?_)
    fun _ _ _ _ _ here => here).follows
  · refine .owning i c x _ (r :: L) _ (List.nodup_cons.mpr ⟨free, once⟩) (locked.lock r) ?_ ?_
    · have apart : S.main c ≠ r := Ne.symm (S.others c x r lockable)
      rw [Stands] at here ⊢
      simpa only [List.mem_cons, apart, false_or] using here
    · rw [share_take_self r (by simp)]
      exact does y (S.known r y _ related) _ holds (share_disjoint (by simp))
  · exact share_take_other _ (by simp) (by simpa using other_of_granted granted other read)

/-- A call unlocks a resource: its own, and then it takes effect, or another one. -/
theorem Inv.owning_unlock (inv : S.Inv own g spec) {range : Range File}
    {next : Unit → Prog File E (Reply × δ)} (once : L.Nodup)
    (locked : Locked P (g.locks p) L .write)
    (here : S.Stands spec.state i c x L (spec.status p))
    (does : wp (S.mode c x) (.op (.unlock range) next) S.know L (share own g.files (.proc p))
      (S.Done c x)) :
    S.Follows (g.perform p (.unlock range) next) spec none := by
  obtain ⟨r, member, rfl, y, allowed, a, b, disjoint, parts, holds, -, does⟩ := does
  have held := locked.here member
  have learn : (S.mode c x).learn S.know r y = S.know := if_neg (by simp [S.shared c x])
  obtain ⟨-, mine, others⟩ := share_give disjoint parts (by simp) (inv.resources.taken p r held)
  rw [learn, ← mine] at does
  have readOther (q : Pid) (other : q ≠ p) (r' : Res)
      (read : lockOf P (g.locks q) r' = some .read) : r' ≠ r := by
    rintro rfl
    rw [inv.resources.apart p q r' other held] at read
    cases read
  -- the call takes effect with the lock on its own resource
  by_cases own_ : r = S.main c
  · subst own_
    rw [Stands, if_pos member] at here
    obtain ⟨kind, related, status⟩ := here
    refine ⟨give own (S.main c) a, _, .single (.point p i c status), (List.append_nil _).symm, ?_⟩
    have after := S.leaves c x y _ kind related allowed
    refine inv.update (inv.resources.unlock held disjoint parts holds after fun r' z other =>
      S.frame c r' z _ other) ?_ (fun q other => Function.update_of_ne other _ _)
      (fun q other => others _ (by simpa using other) (by simp))
      (fun q other r' read => others _ (by simp) (by simpa using readOther q other r' read))
      fun q other r' z locked' => S.frame c r' z _ ?_
    · refine .owning i c x _ (L.erase (S.main c)) _ (once.erase _) (locked.unlock once _) ?_ does
      dsimp only
      rw [Stands, if_neg once.not_mem_erase, Function.update_self, S.answers c x _ related]
    · rintro rfl
      exact locked' (inv.resources.apart p q (S.main c) other held)
  · -- another resource is only passed, and the state stays
    have same : S.main c ∈ L.erase r ↔ S.main c ∈ L := List.mem_erase_of_ne (Ne.symm own_)
    refine (inv.update (inv.resources.unlock held disjoint parts holds
      (S.passes c x r y _ own_ allowed)
      fun _ _ _ here => here) ?_ (fun _ _ => rfl) (fun q other =>
      others _ (by simpa using other) (by simp))
      (fun q other r' read => others _ (by simp) (by simpa using readOther q other r' read))
      fun _ _ _ _ _ here => here).follows
    refine .owning i c x _ (L.erase r) _ (once.erase r) (locked.unlock once r) ?_ does
    rw [Stands] at here ⊢
    rwa [if_congr same rfl rfl]

theorem Inv.owning_op (inv : S.Inv own g spec) {o : Op File}
    {next : o.Result → Prog File E (Reply × δ)} (once : L.Nodup)
    (locked : Locked P (g.locks p) L .write) (here : S.Stands spec.state i c x L (spec.status p))
    (does : wp (S.mode c x) (.op o next) S.know L (share own g.files (.proc p)) (S.Done c x))
    (granted : o.Granted g.locks p) : S.Follows (g.perform p o next) spec none := by
  cases o with
  | size file =>
    exact (inv.update_own (.owning i c x _ L _ once locked here (wp_size does))
      fun _ _ => rfl).follows
  | pread file offset len =>
    exact (inv.update_own (.owning i c x _ L _ once locked here (wp_pread does))
      fun _ _ => rfl).follows
  | pwrite file offset data =>
    obtain ⟨-, does, others⟩ := wp_pwrite does
    exact (inv.update_own (.owning i c x _ L _ once locked here does) others).follows
  | lock range kind => exact inv.owning_lock once locked here does granted
  | unlock range => exact inv.owning_unlock once locked here does

/-- A call that reads takes effect when it unlocks its resource. -/
theorem Inv.reading_op (inv : S.Inv own g spec) {o : Op File}
    {next : o.Result → Prog File E (Reply × δ)}
    (status : spec.status p = .called i c) (kind : S.kind c = .read)
    (empty : share own g.files (.proc p) = Heap.empty)
    (locked : Locked P (g.locks p) [S.main c] .read)
    (related : S.rel (S.main c) x spec.state)
    (does : wp (S.mode c x) (.op o next) S.know [S.main c] (share own g.files (.res (S.main c)))
      (S.Done c x)) :
    S.Follows (g.perform p o next) spec none := by
  have quiet := S.quiet c x kind
  cases o with
  | size file =>
    refine (inv.update_own ?_ fun _ _ => rfl).follows
    rw [status]
    exact .reading i c x _ kind empty locked related (wp_size does)
  | pread file offset len =>
    refine (inv.update_own ?_ fun _ _ => rfl).follows
    rw [status]
    exact .reading i c x _ kind empty locked related (wp_pread does)
  -- a call that reads writes nothing and takes no second lock
  | pwrite file offset data =>
    obtain ⟨writes, -⟩ := does
    rw [quiet] at writes
    cases writes
  | lock range kind =>
    obtain ⟨-, -, -, writes, -⟩ := does
    rw [quiet] at writes
    cases writes
  | unlock range =>
    obtain ⟨r, member, rfl, y, -, a, b, -, -, -, whole, does⟩ := does
    obtain rfl := List.mem_singleton.mp member
    have learn : (S.mode c x).learn S.know (S.main c) y = S.know := if_neg (by simp [S.shared c x])
    have nothing : b = Heap.empty := whole.resolve_left fun lockable => S.others c x _ lockable rfl
    rw [learn, nothing] at does
    have same := S.reads c spec.state kind
    -- here is the point at which it takes effect
    refine ⟨own, _, .single (.point p i c status), (List.append_nil _).symm, ?_⟩
    refine inv.update ?_ ?_ (fun q other => Function.update_of_ne other _ _) (fun _ _ => rfl)
      (fun _ _ _ _ => rfl) fun q other r z locked' here => ?_
    · dsimp only
      rw [same]
      refine inv.resources.unlock_read ?_
      simp [locked.here (List.mem_singleton_self (S.main c))]
    · refine .owning i c x _ _ _ List.nodup_nil ?_ ?_ ?_
      · have after := locked.unlock (List.nodup_singleton _) (S.main c)
        rw [List.erase_cons_head] at after
        exact after.nothing
      · dsimp only
        rw [Stands, if_neg List.not_mem_nil, Function.update_self, S.answers c x _ related]
      · rw [List.erase_cons_head] at does
        change wp _ _ _ _ (share own g.files (.proc p)) _
        rwa [empty]
    · dsimp only
      rwa [same]

end Owning

theorem Inv.step {g' : Machine File E Pid Reply δ} {e : Option (Event Pid Call Reply)}
    (inv : S.Inv own g spec) (step : Machine.Step S.body g e g')
    (alive : ∀ p why, g'.tasks p ≠ .stopped why) : S.Follows g' spec e := by
  cases step with
  | call p d c task =>
    have ok := inv.tasks p
    obtain ⟨status, here⟩ : ∃ status, spec.status p = status := ⟨_, rfl⟩
    rw [task, here] at ok
    cases ok with
    | idle d empty locked =>
      exact ⟨own, _, .single (.call p c here), rfl,
        inv.update_task _ (.waiting _ c d _ rfl empty locked)
        (fun _ _ => Iff.rfl) fun _ _ _ => rfl⟩
  | op p o next task granted =>
    have ok := inv.tasks p
    obtain ⟨status, here⟩ : ∃ status, spec.status p = status := ⟨_, rfl⟩
    rw [task, here] at ok
    cases ok with
    | waiting i c d prog begins empty locked => exact inv.begin here begins empty locked granted
    | reading i c x prog kind empty locked related does =>
      exact inv.reading_op here kind empty locked related does
    | owning i c x prog L status once locked stands does =>
      exact inv.owning_op once locked (here ▸ stands) does granted
  | reply p r d task =>
    have ok := inv.tasks p
    obtain ⟨status, here⟩ : ∃ status, spec.status p = status := ⟨_, rfl⟩
    rw [task, here] at ok
    cases ok with
    -- no call replies before its lock, and none with a lock in its hands
    | waiting i c d' prog begins empty locked =>
      rcases S.begins c d' with ⟨why, stops⟩ | ⟨next, starts, -⟩
      · rw [stops] at begins
        cases begins
      · rw [starts] at begins
        cases begins
    | reading i c x prog kind empty locked related does =>
      obtain ⟨-, nothing⟩ : S.Done c x (r, d) S.know [S.main c] _ := does
      cases nothing
    | owning i c x prog L status once locked stands does =>
      obtain ⟨same, rfl⟩ : S.Done c x (r, d) S.know L _ := does
      rw [Stands, if_neg List.not_mem_nil] at stands
      have done : spec.status p = .done i r := by
        rw [here, stands]
        exact congrArg (Status.done i) same.symm
      exact ⟨drop own p, _, .single (.reply p i r done), rfl,
        inv.update_task _ (.idle d (share_drop_self p) locked)
        (fun _ _ => drop_eq_res) fun _ => share_drop_other⟩
  | stop p why task => exact absurd (Function.update_self p _ g.tasks) (alive p why)

/-! ### Runs -/

variable (S) in
/-- The files hold the state of the object, and no process has begun. -/
structure Starts (g : Machine File E Pid Reply δ) (init : σ) : Prop where
  holds : ∃ own : Owners File Pid Res, (∀ p, share own g.files (.proc p) = Heap.empty) ∧
    ∀ r, ∃ x, S.rel r x init ∧ P.holds r x (share own g.files (.res r))
  unlocked : ∀ p, g.locks p = fun _ _ => none
  idle : ∀ p, ∃ d, g.tasks p = .idle d

theorem Starts.inv {init : σ} (starts : S.Starts g init) : ∃ own, S.Inv own g (.start init) := by
  obtain ⟨own, empty, holds⟩ := starts.holds
  have free (p : Pid) (r : Res) : lockOf P (g.locks p) r = none := by rw [lockOf, starts.unlocked p]
  refine ⟨own, ⟨fun p q r _ held => ?_, fun p r held => ?_, fun r _ => holds r⟩, fun p => ?_⟩
  · exact free q r
  · rw [free p r] at held
    cases held
  · obtain ⟨d, idle⟩ := starts.idle p
    rw [idle]
    refine .idle d (empty p) fun r => ?_
    rw [free p r, if_neg List.not_mem_nil]

/-- As long as no process has stopped, the object has followed the machine. -/
theorem Starts.follows {init : σ} {g' : Machine File E Pid Reply δ} {h : History Pid Call Reply}
    (starts : S.Starts g init) (run : Machine.Run S.body g g' h)
    (alive : ∀ p why, g'.tasks p ≠ .stopped why) :
    ∃ own spec, Relation.ReflTransGen (Spec.Step S.apply) (.start init) spec ∧ spec.history = h ∧
      S.Inv own g' spec := by
  induction run with
  | start =>
    obtain ⟨own, inv⟩ := starts.inv
    exact ⟨own, .start init, .refl, rfl, inv⟩
  | step run step ih =>
    obtain ⟨own, spec, reaches, rfl, inv⟩ :=
      ih fun p why stopped => alive p why (step.stopped stopped)
    obtain ⟨own', spec', goes, history, inv'⟩ := inv.step step alive
    exact ⟨own', spec', reaches.trans goes, history, inv'⟩

/-- The histories of a service are linearizable, as long as no process has stopped. -/
theorem Starts.linearizable {init : σ} {g' : Machine File E Pid Reply δ}
    {h : History Pid Call Reply} (starts : S.Starts g init) (run : Machine.Run S.body g g' h)
    (alive : ∀ p why, g'.tasks p ≠ .stopped why) :
    Linearizable h S.apply init := by
  obtain ⟨_, spec, reaches, rfl, -⟩ := starts.follows run alive
  exact Spec.linearizable reaches

end Invariant

end Service

end FileProgram
