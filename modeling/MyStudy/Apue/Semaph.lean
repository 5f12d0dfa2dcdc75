import Mathlib
import MyStudy.Lib.SemSet

/-!
# Semaphores in sets of three

The functions of `semaph.c`, for one key, as what any number of processes do one system call after
the other. An id is given once. A call that fails ends its process with `err_sys`, as does the end
of a process at any other place: the system takes back what it did with undo.
-/
namespace Apue.Semaph

open SemSet

/-! ### Operations -/

abbrev Member := Fin 3

def bigcount : Nat := 10000

theorem bigcount_le : bigcount ≤ semvmx := by decide

def opLock : List (Sembuf Member) := [⟨2, 0, false⟩, ⟨2, 1, true⟩]

def opEndcreate : List (Sembuf Member) := [⟨1, -1, true⟩, ⟨2, -1, true⟩]

def opOpen : List (Sembuf Member) := [⟨1, -1, true⟩]

def opClose : List (Sembuf Member) := [⟨2, 0, false⟩, ⟨2, 1, true⟩, ⟨1, 1, true⟩]

def opUnlock : List (Sembuf Member) := [⟨2, -1, true⟩]

/-- What is left of an `int` in `sem_op`, which is a `short`. -/
def short (value : Int) : Int := (value + 2 ^ 15) % 2 ^ 16 - 2 ^ 15

def opOp (value : Int) : List (Sembuf Member) := [⟨0, value, true⟩]

/-! ### States -/

/-- The set of the key, if there is one: the last that was made. -/
structure Kernel (Pid : Type) where
  made : Nat
  live : Option (Values Pid Member)

/-- The system call that a process is about to do. One that has to wait is asleep, and is told when
the set is removed. -/
inductive Point where
  | idle
  | creating (initval : Int)
  | createLock (initval : Int) (id : Nat) (asleep : Bool)
  | createCount (initval : Int) (id : Nat)
  | createSet0 (initval : Int) (id : Nat)
  | createSet1 (id : Nat)
  | createEnd (id : Nat) (asleep : Bool)
  | opening
  | openDec (id : Nat) (asleep : Bool)
  | operating (id : Nat) (value : Int) (asleep : Bool)
  | closeLock (id : Nat) (asleep : Bool)
  | closeCount (id : Nat)
  | closeRm (id : Nat)
  | closeUnlock (id : Nat) (asleep : Bool)
  | removing (id : Nat)
  deriving DecidableEq, Repr

/-- A process, with the ids that `sem_create` and `sem_open` gave it and that it has not closed. -/
structure Proc where
  handles : List Nat
  point : Point
  deriving DecidableEq, Repr

structure State (Pid : Type) where
  kernel : Kernel Pid
  procs : Pid → Proc

variable {Pid : Type} [DecidableEq Pid]

/-- The set with an id; another one is invalid. -/
def Kernel.get (k : Kernel Pid) (id : Nat) : Option (Values Pid Member) :=
  if id + 1 = k.made then k.live else none

/-- `semget` with `IPC_CREAT`. -/
def Kernel.create (k : Kernel Pid) : Kernel Pid × Nat :=
  match k.live with
  | some _ => (k, k.made - 1)
  | none => (⟨k.made + 1, some .zero⟩, k.made)

namespace State

def setProc (s : State Pid) (p : Pid) (x : Proc) : State Pid :=
  { s with procs := Function.update s.procs p x }

def setPoint (s : State Pid) (p : Pid) (point : Point) : State Pid :=
  s.setProc p { s.procs p with point }

def setLive (s : State Pid) (live : Option (Values Pid Member)) : State Pid :=
  { s with kernel := { s.kernel with live } }

/-- A process ends, and another one may come in its place. -/
def exit (s : State Pid) (p : Pid) : State Pid :=
  (s.setLive (s.kernel.live.map fun k => k.exit p)).setProc p ⟨[], .idle⟩

/-- `semop`. Beyond the limit it is `ERANGE`. -/
def semop (s : State Pid) (p : Pid) (id : Nat) (ops : List (Sembuf Member)) (asleep : Bool)
    (sleeps : Point) (done : Proc) (invalid : State Pid) : Option (State Pid) :=
  match s.kernel.get id with
  | none => some invalid
  | some k =>
    match k.semop p ops with
    | .ok k' => some ((s.setLive (some k')).setProc p done)
    | .error .wait => if asleep then none else some (s.setPoint p sleeps)
    | .error .range => some (s.exit p)

/-- `semctl`. -/
def semctl (s : State Pid) (p : Pid) (id : Nat) (does : Values Pid Member → State Pid) :
    State Pid :=
  match s.kernel.get id with
  | none => s.exit p
  | some k => does k

end State

/-! ### Steps -/

inductive Request where
  | create (initval : Int)
  | open_
  | op (id : Nat) (value : Int)
  | close (id : Nat)
  | rm (id : Nat)
  deriving DecidableEq, Repr

/-- What happens next: a process calls a function, does its next system call, or ends. -/
inductive Label (Pid : Type) where
  | call (p : Pid) (request : Request)
  | go (p : Pid)
  | exit (p : Pid)
  deriving DecidableEq, Repr

/-- `sem_create`, `sem_open`, `sem_op`, `sem_close` and `sem_rm` begin. A process uses the ids that
it has. -/
def State.call (s : State Pid) (p : Pid) : Request → Option (State Pid)
  | .create initval => some (s.setPoint p (.creating initval))
  | .open_ => some (s.setPoint p .opening)
  | .op id value =>
    if id ∈ (s.procs p).handles then
      some (if short value = 0 then s.exit p else s.setPoint p (.operating id (short value) false))
    else none
  | .close id =>
    if id ∈ (s.procs p).handles then some
      (s.setProc p ⟨(s.procs p).handles.erase id, .closeLock id false⟩) else none
  | .rm id => some (s.setPoint p (.removing id))

/-- The next system call of a process. -/
def State.go (s : State Pid) (p : Pid) : Point → Option (State Pid)
  | .idle => none
  | .creating initval =>
    some ({ s with kernel := s.kernel.create.1 }.setPoint p
      (.createLock initval s.kernel.create.2 false))
  | .createLock initval id asleep =>
    -- only `EINVAL` makes it go back; one that was asleep gets `EIDRM`
    s.semop p id opLock asleep (.createLock initval id true)
      { s.procs p with point := .createCount initval id }
      (if asleep then s.exit p else s.setPoint p (.creating initval))
  | .createCount initval id =>
    some (s.semctl p id fun k =>
      s.setPoint p (if k.val 1 = 0 then .createSet0 initval id else .createEnd id false))
  | .createSet0 initval id =>
    -- a value beyond the limits is `ERANGE`, too
    some (s.semctl p id fun k =>
      if small : 0 ≤ initval ∧ initval.toNat ≤ semvmx then
        (s.setLive (some (k.setval 0 initval.toNat small.2))).setPoint p (.createSet1 id)
      else s.exit p)
  | .createSet1 id =>
    some (s.semctl p id fun k =>
      (s.setLive (some (k.setval 1 bigcount bigcount_le))).setPoint p (.createEnd id false))
  | .createEnd id asleep =>
    s.semop p id opEndcreate asleep (.createEnd id true)
      ⟨id :: (s.procs p).handles, .idle⟩ (s.exit p)
  | .opening =>
    match s.kernel.live with
    | none => some (s.setPoint p .idle)
    | some _ => some (s.setPoint p (.openDec (s.kernel.made - 1) false))
  | .openDec id asleep =>
    s.semop p id opOpen asleep (.openDec id true) ⟨id :: (s.procs p).handles, .idle⟩ (s.exit p)
  | .operating id value asleep =>
    s.semop p id (opOp value) asleep (.operating id value true)
      { s.procs p with point := .idle } (s.exit p)
  | .closeLock id asleep =>
    s.semop p id opClose asleep (.closeLock id true)
      { s.procs p with point := .closeCount id } (s.exit p)
  | .closeCount id =>
    some (s.semctl p id fun k =>
      if k.val 1 > bigcount then s.exit p
      else s.setPoint p (if k.val 1 = bigcount then .closeRm id else .closeUnlock id false))
  | .closeRm id => some (s.semctl p id fun _ => (s.setLive none).setPoint p .idle)
  | .closeUnlock id asleep =>
    s.semop p id opUnlock asleep (.closeUnlock id true) { s.procs p with point := .idle } (s.exit p)
  | .removing id => some (s.semctl p id fun _ => (s.setLive none).setPoint p .idle)

def step (s : State Pid) : Label Pid → Option (State Pid)
  | .call p request => if (s.procs p).point = .idle then s.call p request else none
  | .go p => s.go p (s.procs p).point
  | .exit p => some (s.exit p)

/-- Nobody has done anything. -/
def State.init : State Pid := ⟨⟨0, none⟩, fun _ => ⟨[], .idle⟩⟩

/-! ### What a process has -/

/-- `sem_close` begins with the lock, and the process has the semaphore open until then. -/
@[simp] def Point.closes : Point → Option Nat
  | .closeLock id _ => some id
  | _ => none

/-- How often a process has the semaphore with an id open. -/
def Proc.uses (x : Proc) (id : Nat) : Nat :=
  x.handles.count id + if x.point.closes = some id then 1 else 0

/-! ### Units -/

/-- The operations that a process is about to do. -/
def Point.ops : Point → Option (Nat × List (Sembuf Member))
  | .createLock _ id _ => some (id, opLock)
  | .createEnd id _ => some (id, opEndcreate)
  | .openDec id _ => some (id, opOpen)
  | .operating id value _ => some (id, opOp value)
  | .closeLock id _ => some (id, opClose)
  | .closeUnlock id _ => some (id, opUnlock)
  | _ => none

/-- The operations that a process is about to do go beyond the limit. -/
def State.Exceeds (s : State Pid) (p : Pid) : Prop :=
  ((s.procs p).point.ops.any fun at_ => (s.kernel.get at_.1).any fun k =>
    match k.semop p at_.2 with
    | .error .range => true
    | _ => false) = true

theorem State.exceeds {s : State Pid} {p : Pid} {id : Nat} {ops : List (Sembuf Member)}
    {k : Values Pid Member} (at_ : (s.procs p).point.ops = some (id, ops))
    (set : s.kernel.get id = some k) (beyond : k.semop p ops = .error .range) : s.Exceeds p := by
  rw [State.Exceeds, at_, Option.any_some, set, Option.any_some, beyond]

/-- A process has given no more than it has taken, and what it gives back finds room. -/
def State.Returning (s : State Pid) (p : Pid) : Prop :=
  ∀ k ∈ s.kernel.live, 0 ≤ k.adj p 0 ∧ (k.val 0 : Int) + k.adj p 0 ≤ semvmx

/-- All create the semaphore with the same value, and no process ends, be it by an error, that has
given more than it has taken or has more to give back than the semaphore can hold. -/
def Returns (v : Int) (s : State Pid) : Label Pid → Prop
  | .call _ (.create initval) => initval = v
  | .call p (.op _ value) => short value = 0 → s.Returning p
  | .go p => s.Exceeds p → s.Returning p
  | .exit p => s.Returning p
  | _ => True

instance (s : State Pid) (p : Pid) : Decidable (s.Exceeds p) :=
  inferInstanceAs (Decidable (_ = true))

instance (s : State Pid) (p : Pid) : Decidable (s.Returning p) :=
  inferInstanceAs (Decidable (∀ k ∈ s.kernel.live, _))

instance (v : Int) (s : State Pid) : ∀ label, Decidable (Returns v s label)
  | .call _ (.create initval) => inferInstanceAs (Decidable (initval = v))
  | .call _ .open_ => isTrue trivial
  | .call p (.op _ value) => inferInstanceAs (Decidable (short value = 0 → s.Returning p))
  | .call _ (.close _) => isTrue trivial
  | .call _ (.rm _) => isTrue trivial
  | .go p => inferInstanceAs (Decidable (s.Exceeds p → s.Returning p))
  | .exit p => inferInstanceAs (Decidable (s.Returning p))

/-- The units of a semaphore that somebody has open: `v` in all, in `[0]` or with the processes. -/
def Conserved [Fintype Pid] (v : Int) (s : State Pid) : Prop :=
  ∀ p id k, (s.procs p).uses id ≠ 0 → s.kernel.get id = some k →
    (k.val 0 : Int) + ∑ q, k.adj q 0 = v

end Apue.Semaph
