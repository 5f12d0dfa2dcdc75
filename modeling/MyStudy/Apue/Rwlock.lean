import MyStudy.Lib.DoublyLinked

/-!
# A queue of jobs

The functions of `rwlock.c`. Each holds the lock of the queue as long as it looks at the links, so
that a call is one step, whoever makes it; only `job_find` can be without the lock, and then it
looks at nothing. A link that is not there must not be followed.
-/
namespace Apue.Rwlock

open Links

variable {J : Type} [DecidableEq J]

/-- `queue_init`, over what was in memory. -/
def queueInit (q : Links J) : Links J := (q.setHead none).setTail none

def jobInsert (q : Links J) (jp : J) : Links J :=
  let q := (q.setNext jp q.head).setPrev jp none
  let q := match q.head with
    | some head => q.setPrev head (some jp)
    | none => q.setTail (some jp)
  q.setHead (some jp)

def jobAppend (q : Links J) (jp : J) : Links J :=
  let q := (q.setNext jp none).setPrev jp q.tail
  let q := match q.tail with
    | some tail => q.setNext tail (some jp)
    | none => q.setHead (some jp)
  q.setTail (some jp)

def jobRemove (q : Links J) (jp : J) : Option (Links J) :=
  if q.head = some jp then
    let q := q.setHead (q.next jp)
    if q.tail = some jp then some (q.setTail none)
    else (q.next jp).map fun next => q.setPrev next (q.prev jp)
  else if q.tail = some jp then
    let q := q.setTail (q.prev jp)
    (q.prev jp).map fun prev => q.setNext prev (q.next jp)
  else
    (q.prev jp).bind fun prev =>
      let q := q.setNext prev (q.next jp)
      (q.next jp).map fun next => q.setPrev next (q.prev jp)

/-- `job_find`, with the answer of `pthread_rwlock_rdlock`, for so many rounds of its loop. -/
def jobFind {Tid : Type} [DecidableEq Tid] (jId : J → Tid) (q : Links J) (id : Tid) (rdlock : Int)
    (rounds : Nat) : Option (Option J) :=
  if rdlock ≠ 0 then some none else q.find (fun jp => jId jp = id) rounds q.head

/-! ### Calls -/

inductive Call (J : Type) where
  | insert (jp : J)
  | append (jp : J)
  | remove (jp : J)

def call (q : Links J) : Call J → Option (Links J)
  | .insert jp => some (jobInsert q jp)
  | .append jp => some (jobAppend q jp)
  | .remove jp => jobRemove q jp

/-- What the calls are for: a job is put into the queue while it is not in it, and taken out while
it is. -/
def onList (l : List J) : Call J → Option (List J)
  | .insert jp => if jp ∈ l then none else some (jp :: l)
  | .append jp => if jp ∈ l then none else some (l ++ [jp])
  | .remove jp => if jp ∈ l then some (l.erase jp) else none

variable {q : Links J} {l l' : List J} {jp : J}

theorem jobInsert_eq (q : Links J) (jp : J) : jobInsert q jp = q.insert jp := by
  cases first : q.head with
  | none => simp [jobInsert, setNext, setPrev, setHead, setTail, Links.insert, first]
  | some head => simp [jobInsert, setNext, setPrev, setHead, Links.insert, first]

theorem jobAppend_eq (q : Links J) (jp : J) : jobAppend q jp = q.append jp := by
  cases last : q.tail with
  | none => simp [jobAppend, setNext, setPrev, setHead, setTail, Links.append, turned, Links.insert,
              last]
  | some tail => simp [jobAppend, setNext, setPrev, setTail, Links.append, turned, Links.insert,
                   last]

/-- The four places where a job can be. -/
theorem jobRemove_eq {pre post : List J} (lists : q.Lists (pre ++ jp :: post)) :
    jobRemove q jp = some (q.remove jp) := by
  have first := lists.prev_none
  have last := lists.next_none
  have other := lists.prev_ne
  cases before : q.prev jp with
  | none =>
    cases behind : q.next jp with
    | none =>
      simp [jobRemove, first.mp before, last.mp behind, setHead, setTail, Links.remove, before,
        behind]
    | some next =>
      have more : q.tail ≠ some jp := fun ends => by simp [last.mpr ends] at behind
      simp [jobRemove, first.mp before, more, setHead, setPrev, Links.remove, before, behind]
  | some prev =>
    have inside : q.head ≠ some jp := fun starts => by simp [first.mpr starts] at before
    cases behind : q.next jp with
    | none => simp [jobRemove, inside, last.mp behind, setTail, setNext, Links.remove, before,
                behind]
    | some next =>
      have more : q.tail ≠ some jp := fun ends => by simp [last.mpr ends] at behind
      have apart : jp ≠ prev := by
        rintro rfl
        exact other before
      simp [jobRemove, inside, more, setNext, setPrev, Links.remove, before, behind,
        Function.update_of_ne apart]

theorem call_lists (lists : q.Lists l) {c : Call J} (does : onList l c = some l') :
    ∃ q', call q c = some q' ∧ q'.Lists l' := by
  cases c with
  | insert jp =>
    rw [onList] at does
    split at does
    next => cases does
    next new =>
      obtain rfl := Option.some.inj does
      exact ⟨_, congrArg some (jobInsert_eq q jp), lists.insert new⟩
  | append jp =>
    rw [onList] at does
    split at does
    next => cases does
    next new =>
      obtain rfl := Option.some.inj does
      exact ⟨_, congrArg some (jobAppend_eq q jp), lists.append new⟩
  | remove jp =>
    rw [onList] at does
    split at does
    next member =>
      obtain rfl := Option.some.inj does
      obtain ⟨pre, post, absent, rfl, erased⟩ := List.exists_erase_eq member
      rw [erased]
      exact ⟨_, jobRemove_eq lists, lists.remove⟩
    next => cases does

/-! ### Runs -/

theorem run_lists (lists : q.Lists l) (calls : List (Call J))
    (does : calls.foldlM onList l = some l') :
    ∃ q', calls.foldlM call q = some q' ∧ q'.Lists l' := by
  induction calls generalizing l q with
  | nil =>
    obtain rfl := Option.some.inj does
    exact ⟨q, rfl, lists⟩
  | cons c calls ih =>
    rw [List.foldlM_cons] at does
    obtain ⟨next, first, rest⟩ := Option.bind_eq_some_iff.mp does
    obtain ⟨q', goes, after⟩ := call_lists lists first
    rw [List.foldlM_cons, goes]
    exact ih after rest

/-- **The queue is a list**: whatever calls are made in whatever order, no link is followed that is
not there, the queue is linked in both directions in the order that the calls give it, and
`job_find` ends with the first job of a thread, if there is one and the lock is given. -/
theorem queue_lists {Tid : Type} [DecidableEq Tid] (jId : J → Tid) (memory : Links J)
    (calls : List (Call J)) (does : calls.foldlM onList [] = some l) :
    ∃ q, calls.foldlM call (queueInit memory) = some q ∧ q.Lists l ∧
      ∀ id rdlock rounds, l.length ≤ rounds →
        jobFind jId q id rdlock rounds =
          some (if rdlock = 0 then l.find? fun jp => jId jp = id else none) := by
  obtain ⟨q, goes, lists⟩ := run_lists (lists_empty (queueInit memory) rfl rfl) calls does
  refine ⟨q, goes, lists, fun id rdlock rounds room => ?_⟩
  rw [jobFind]
  by_cases given : rdlock = 0
  · have all : q.Lists ([] ++ l) := lists
    rw [if_neg (not_not.mpr given), if_pos given, lists.head]
    exact all.find _ room
  · rw [if_pos given, if_neg given]

/-- Two jobs are put in, and the first is taken out. -/
theorem queue_lists_two : ∃ q : Links Nat,
    [Call.insert 1, .append 2, .remove 1].foldlM call (queueInit .empty) = some q ∧ q.Lists [2] ∧
      ∀ id rdlock rounds, [2].length ≤ rounds →
        jobFind (fun jp => jp) q id rdlock rounds =
          some (if rdlock = 0 then [2].find? fun jp => jp = id else none) :=
  queue_lists (fun jp => jp) .empty [.insert 1, .append 2, .remove 1] (by decide)

end Apue.Rwlock
