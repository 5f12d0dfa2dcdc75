import Mathlib

/-!
# Objects with a count of their references

The functions of `mutex2.c`, as what any number of threads do one access to the memory after the
other. What is done with memory that is not there, or with a lock against its rules, is a fault, and
so is a count that overflows.
-/
namespace Apue.Mutex2

abbrev Addr := Nat

def nhash : Nat := 29

theorem nhash_pos : 0 < nhash := by decide

/-- `HASH`, of an `int`. -/
def hash (id : Int) : Fin nhash := ⟨(id % 2 ^ 64).toNat % nhash, Nat.mod_lt _ nhash_pos⟩

structure Foo (Tid : Type) where
  count : Int
  /-- `f_count` is an `int`. -/
  int : -2 ^ 31 ≤ count ∧ count < 2 ^ 31
  lock : Option Tid
  id : Int
  next : Option Addr

/-- What a thread does next. -/
inductive Point where
  | idle
  | allocMalloc (id : Int)
  | allocLockHash (id : Int) (fp : Addr)
  | allocNext (id : Int) (fp : Addr)
  | allocHead (id : Int) (fp : Addr)
  | allocLock (fp : Addr)
  | allocUnlockHash (fp : Addr)
  | allocUnlock (fp : Addr)
  | holdLock (fp : Addr)
  | holdCount (fp : Addr)
  | holdUnlock (fp : Addr)
  | findLockHash (id : Int)
  | findHead (id : Int)
  | findTest (id : Int) (fp : Option Addr)
  | findLock (id : Int) (fp : Addr)
  | findCount (id : Int) (fp : Addr)
  | findUnlock (id : Int) (fp : Addr)
  | findUnlockHash (id : Int) (fp : Option Addr)
  | releLock (fp : Addr)
  | releTest (fp : Addr)
  | releUnlockFirst (fp : Addr)
  | releLockHash (fp : Addr)
  | releRelock (fp : Addr)
  | releRecheck (fp : Addr)
  | releRecount (fp : Addr)
  | releUnlockAgain (fp : Addr)
  | releUnlockHashAgain
  | releHead (fp : Addr)
  | releUnlinkHead (fp : Addr)
  | releWalk (fp tfp : Addr)
  | releUnlink (fp tfp : Addr)
  | releUnlockHash (fp : Addr)
  | releUnlock (fp : Addr)
  | releDestroy (fp : Addr)
  | releFree (fp : Addr)
  | releCount (fp : Addr)
  | releUnlockLast (fp : Addr)
  deriving DecidableEq, Repr

/-- A thread, with the references that it has. -/
structure Thread where
  refs : List Addr
  point : Point
  deriving DecidableEq, Repr

structure State (Tid : Type) where
  heap : Addr → Option (Foo Tid)
  fh : Fin nhash → Option Addr
  hashlock : Option Tid
  threads : Tid → Thread

/-- A step that cannot be taken yet, one that must not be taken, and one that is. -/
inductive Result (σ : Type) where
  | blocked
  | fault
  | ok (s : σ)

variable {Tid : Type} [DecidableEq Tid]

namespace State

def setThread (s : State Tid) (t : Tid) (x : Thread) : State Tid :=
  { s with threads := Function.update s.threads t x }

def setPoint (s : State Tid) (t : Tid) (point : Point) : State Tid :=
  s.setThread t { s.threads t with point }

def setFoo (s : State Tid) (fp : Addr) (o : Foo Tid) : State Tid :=
  { s with heap := Function.update s.heap fp (some o) }

/-- An access to an object. -/
def atFoo (s : State Tid) (fp : Addr) (does : Foo Tid → Result (State Tid)) : Result (State Tid) :=
  match s.heap fp with
  | none => .fault
  | some o => does o

/-- `pthread_mutex_lock` of an object. -/
def lockFoo (s : State Tid) (t : Tid) (fp : Addr) (point : Point) : Result (State Tid) :=
  s.atFoo fp fun o =>
    match o.lock with
    | some _ => .blocked
    | none => .ok ((s.setFoo fp { o with lock := some t }).setPoint t point)

/-- `pthread_mutex_unlock` of an object. -/
def unlockFoo (s : State Tid) (t : Tid) (fp : Addr) (x : Thread) : Result (State Tid) :=
  s.atFoo fp fun o =>
    if o.lock = some t then .ok ((s.setFoo fp { o with lock := none }).setThread t x) else .fault

def lockHash (s : State Tid) (t : Tid) (point : Point) : Result (State Tid) :=
  match s.hashlock with
  | some _ => .blocked
  | none => .ok ({ s with hashlock := some t }.setPoint t point)

def unlockHash (s : State Tid) (t : Tid) (x : Thread) : Result (State Tid) :=
  if s.hashlock = some t then .ok ({ s with hashlock := none }.setThread t x) else .fault

/-- The count of an object changes. -/
def addCount (s : State Tid) (t : Tid) (fp : Addr) (n : Int) (point : Point) : Result (State Tid) :=
  s.atFoo fp fun o =>
    if int : -2 ^ 31 ≤ o.count + n ∧ o.count + n < 2 ^ 31 then
      .ok ((s.setFoo fp { o with count := o.count + n, int := int }).setPoint t point)
    else .fault

/-- A thread only goes on. -/
def goesTo (s : State Tid) (t : Tid) (point : Point) : Result (State Tid) :=
  .ok (s.setPoint t point)

/-- The next access of a thread. -/
def go (s : State Tid) (t : Tid) : Point → Result (State Tid)
  | .idle => .blocked
  | .allocMalloc _ => .blocked
  | .allocLockHash id fp => s.lockHash t (.allocNext id fp)
  | .allocNext id fp =>
    s.atFoo fp fun o =>
      .ok ((s.setFoo fp { o with next := s.fh (hash id) }).setPoint t (.allocHead id fp))
  | .allocHead id fp =>
    .ok ({ s with fh := Function.update s.fh (hash id) (some fp) }.setPoint t (.allocLock fp))
  | .allocLock fp => s.lockFoo t fp (.allocUnlockHash fp)
  | .allocUnlockHash fp => s.unlockHash t { s.threads t with point := .allocUnlock fp }
  | .allocUnlock fp => s.unlockFoo t fp ⟨fp :: (s.threads t).refs, .idle⟩
  | .holdLock fp => s.lockFoo t fp (.holdCount fp)
  | .holdCount fp => s.addCount t fp 1 (.holdUnlock fp)
  | .holdUnlock fp => s.unlockFoo t fp ⟨fp :: (s.threads t).refs, .idle⟩
  | .findLockHash id => s.lockHash t (.findHead id)
  | .findHead id => s.goesTo t (.findTest id (s.fh (hash id)))
  | .findTest id none => s.goesTo t (.findUnlockHash id none)
  | .findTest id (some fp) =>
    s.atFoo fp fun o => s.goesTo t (if o.id = id then .findLock id fp else .findTest id o.next)
  | .findLock id fp => s.lockFoo t fp (.findCount id fp)
  | .findCount id fp => s.addCount t fp 1 (.findUnlock id fp)
  | .findUnlock id fp => s.unlockFoo t fp { s.threads t with point := .findUnlockHash id (some fp) }
  | .findUnlockHash _ fp => s.unlockHash t ⟨fp.toList ++ (s.threads t).refs, .idle⟩
  | .releLock fp => s.lockFoo t fp (.releTest fp)
  | .releTest fp =>
    s.atFoo fp fun o => s.goesTo t (if o.count = 1 then .releUnlockFirst fp else .releCount fp)
  | .releUnlockFirst fp => s.unlockFoo t fp { s.threads t with point := .releLockHash fp }
  | .releLockHash fp => s.lockHash t (.releRelock fp)
  | .releRelock fp => s.lockFoo t fp (.releRecheck fp)
  | .releRecheck fp =>
    s.atFoo fp fun o => s.goesTo t (if o.count ≠ 1 then .releRecount fp else .releHead fp)
  | .releRecount fp => s.addCount t fp (-1) (.releUnlockAgain fp)
  | .releUnlockAgain fp => s.unlockFoo t fp { s.threads t with point := .releUnlockHashAgain }
  | .releUnlockHashAgain => s.unlockHash t { s.threads t with point := .idle }
  | .releHead fp =>
    s.atFoo fp fun o =>
      match s.fh (hash o.id) with
      | none => .fault
      | some tfp => s.goesTo t (if tfp = fp then .releUnlinkHead fp else .releWalk fp tfp)
  | .releUnlinkHead fp =>
    s.atFoo fp fun o =>
      .ok ({ s with fh := Function.update s.fh (hash o.id) o.next }.setPoint t (.releUnlockHash fp))
  | .releWalk fp tfp =>
    s.atFoo tfp fun o =>
      match o.next with
      | none => .fault
      | some q => s.goesTo t (if q = fp then .releUnlink fp tfp else .releWalk fp q)
  | .releUnlink fp tfp =>
    s.atFoo fp fun o => s.atFoo tfp fun p =>
      .ok ((s.setFoo tfp { p with next := o.next }).setPoint t (.releUnlockHash fp))
  | .releUnlockHash fp => s.unlockHash t { s.threads t with point := .releUnlock fp }
  | .releUnlock fp => s.unlockFoo t fp { s.threads t with point := .releDestroy fp }
  | .releDestroy fp =>
    s.atFoo fp fun o => if o.lock = none then s.goesTo t (.releFree fp) else .fault
  | .releFree fp =>
    s.atFoo fp fun _ => .ok ({ s with heap := Function.update s.heap fp none }.setPoint t .idle)
  | .releCount fp => s.addCount t fp (-1) (.releUnlockLast fp)
  | .releUnlockLast fp => s.unlockFoo t fp { s.threads t with point := .idle }

end State

/-! ### Steps -/

inductive Request where
  | alloc (id : Int)
  | hold (fp : Addr)
  | find (id : Int)
  | rele (fp : Addr)
  deriving DecidableEq, Repr

/-- A thread calls a function, `malloc` gives it memory or none, or it does its next access. -/
inductive Label (Tid : Type) where
  | call (t : Tid) (request : Request)
  | malloc (t : Tid) (fp : Option Addr)
  | go (t : Tid)
  deriving DecidableEq, Repr

/-- The functions begin. A thread holds and releases the references that it has. -/
def State.call (s : State Tid) (t : Tid) : Request → Result (State Tid)
  | .alloc id => s.goesTo t (.allocMalloc id)
  | .hold fp => if fp ∈ (s.threads t).refs then s.goesTo t (.holdLock fp) else .blocked
  | .find id => s.goesTo t (.findLockHash id)
  | .rele fp =>
    if fp ∈ (s.threads t).refs then .ok (s.setThread t ⟨(s.threads t).refs.erase fp, .releLock fp⟩)
      else .blocked

/-- The first part of `foo_alloc`. -/
def State.malloc (s : State Tid) (t : Tid) (id : Int) : Option Addr → Result (State Tid)
  | none => s.goesTo t .idle
  | some fp =>
    if s.heap fp = none then
      .ok ((s.setFoo fp ⟨1, by decide, none, id, none⟩).setPoint t (.allocLockHash id fp))
    else .blocked

def act (s : State Tid) : Label Tid → Result (State Tid)
  | .call t request => if (s.threads t).point = .idle then s.call t request else .blocked
  | .malloc t fp =>
    match (s.threads t).point with
    | .allocMalloc id => s.malloc t id fp
    | _ => .blocked
  | .go t => s.go t (s.threads t).point

def step (s : State Tid) (label : Label Tid) : Option (State Tid) :=
  match act s label with
  | .ok t => some t
  | _ => none

def State.init : State Tid := ⟨fun _ => none, fun _ => none, none, fun _ => ⟨[], .idle⟩⟩

end Apue.Mutex2
