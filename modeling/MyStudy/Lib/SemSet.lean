import MyStudy.Lib.Shares

/-!
# Sets of semaphores

The members of a set are changed by several operations at once, and each process has an adjustment
for each member: what its operations with undo took away is given back when it ends. What a member
holds together with all adjustments for it is conserved.
-/

namespace SemSet

variable {Pid ι : Type} [DecidableEq Pid] [DecidableEq ι]

/-- An operation on a member. -/
structure Sembuf (ι : Type) where
  num : ι
  op : Int
  undo : Bool
  deriving DecidableEq, Repr

/-- What a member holds, and what a process may have to give back to it, has a limit. -/
def semvmx : Nat := 32767

structure Values (Pid ι : Type) where
  val : ι → Nat
  adj : Pid → ι → Int
  le : ∀ i, val i ≤ semvmx

/-- Why operations are not done: one would have to wait, or goes beyond the limit. -/
inductive Failure where
  | wait
  | range
  deriving DecidableEq, Repr

namespace Values

def zero : Values Pid ι := ⟨fun _ => 0, fun _ _ => 0, fun _ => Nat.zero_le _⟩

/-- A member holds something else. -/
def put (s : Values Pid ι) (i : ι) (v : Nat) (small : v ≤ semvmx) (adj : Pid → ι → Int) :
    Values Pid ι where
  val := Function.update s.val i v
  adj := adj
  le := (Function.forall_update_iff s.val fun _ n => n ≤ semvmx).mpr ⟨small, fun j _ => s.le j⟩

/-- What a process has to give back once it has done an operation. -/
def undone (s : Values Pid ι) (p : Pid) (b : Sembuf ι) : Pid → ι → Int :=
  if b.undo then Function.update s.adj p
    (Function.update (s.adj p) b.num (s.adj p b.num - b.op)) else s.adj

/-- One operation, if it need not wait and stays within the limit. -/
def apply (s : Values Pid ι) (p : Pid) (b : Sembuf ι) : Except Failure (Values Pid ι) :=
  if b.op = 0 then if s.val b.num = 0 then .ok s else .error .wait
  else if (s.val b.num : Int) + b.op < 0 then .error .wait
  else if small : ((s.val b.num : Int) + b.op).toNat ≤ semvmx then
    if b.undo = true ∧ (s.adj p b.num - b.op < -semvmx - 1 ∨
      semvmx < s.adj p b.num - b.op) then .error .range
    else .ok (s.put b.num _ small (s.undone p b))
  else .error .range

/-- All of the operations at once, or none of them. -/
def semop (s : Values Pid ι) (p : Pid) (bs : List (Sembuf ι)) : Except Failure (Values Pid ι) :=
  bs.foldlM (fun s b => s.apply p b) s

/-- A member gets a new value, and nobody has anything to give back to it. -/
def setval (s : Values Pid ι) (i : ι) (v : Nat) (small : v ≤ semvmx) : Values Pid ι :=
  s.put i v small fun p => Function.update (s.adj p) i 0

omit [DecidableEq Pid] in
@[simp] theorem adj_setval_self (s : Values Pid ι) (i : ι) (v : Nat) (small : v ≤ semvmx)
    (p : Pid) :
    (s.setval i v small).adj p i = 0 :=
  Function.update_self _ _ _

omit [DecidableEq Pid] in
theorem adj_setval_other (s : Values Pid ι) {i j : ι} (other : j ≠ i) (v : Nat)
    (small : v ≤ semvmx) (p : Pid) :
    (s.setval i v small).adj p j = s.adj p j := Function.update_of_ne other _ _

/-- A process ends. No value gets below 0 or beyond the limit. -/
def exit (s : Values Pid ι) (p : Pid) : Values Pid ι where
  val := fun i => min semvmx ((s.val i : Int) + s.adj p i).toNat
  adj := Function.update s.adj p fun _ => 0
  le := fun _ => Nat.min_le_left _ _

/-! ### What the operations do to one member -/

variable {s t : Values Pid ι} {p q : Pid} {b : Sembuf ι} {bs : List (Sembuf ι)} {i : ι}

/-- An operation that is done either found the 0 it waits for, or changed its member. -/
theorem apply_cases (done : s.apply p b = .ok t) :
    (b.op = 0 ∧ s.val b.num = 0 ∧ t = s) ∨
      b.op ≠ 0 ∧ 0 ≤ (s.val b.num : Int) + b.op ∧
        ∃ small, t = s.put b.num ((s.val b.num : Int) + b.op).toNat small (s.undone p b) := by
  rw [apply] at done
  split at done
  next none_ =>
    split at done
    next zero => exact .inl ⟨none_, zero, (Except.ok.inj done).symm⟩
    next => cases done
  next some_ =>
    split at done
    next => cases done
    next enough =>
      split at done
      next small =>
        split at done
        · cases done
        · exact .inr ⟨some_, not_lt.mp enough, small, (Except.ok.inj done).symm⟩
      next => cases done

theorem semop_cons (done : s.semop p (b :: bs) = .ok t) :
    ∃ u, s.apply p b = .ok u ∧ u.semop p bs = .ok t := by
  rw [semop, List.foldlM_cons] at done
  cases first : s.apply p b with
  | error failure =>
    rw [first] at done
    cases done
  | ok u =>
    rw [first] at done
    exact ⟨u, rfl, done⟩

theorem apply_adj_other (done : s.apply p b = .ok t) (other : q ≠ p) : t.adj q = s.adj q := by
  rcases apply_cases done with ⟨-, -, rfl⟩ | ⟨-, -, small, rfl⟩
  · rfl
  · change s.undone p b q = s.adj q
    rw [undone]
    split
    · exact Function.update_of_ne other _ _
    · rfl

/-- How much the operations with undo add to a member. -/
def change (i : ι) (bs : List (Sembuf ι)) : Int :=
  ((bs.filter fun b => b.num = i).map Sembuf.op).sum

theorem change_cons (i : ι) (b : Sembuf ι) (bs : List (Sembuf ι)) :
    change i (b :: bs) = (if b.num = i then b.op else 0) + change i bs := by
  rw [change, change, List.filter_cons]
  by_cases same : b.num = i
  · simp [same]
  · simp [same]

theorem apply_spec (undo : b.undo = true ∨ b.op = 0) (done : s.apply p b = .ok t) (i : ι) :
    (t.val i : Int) = s.val i + (if b.num = i then b.op else 0) ∧
      t.adj p i = s.adj p i - if b.num = i then b.op else 0 := by
  rcases apply_cases done with ⟨zero, -, rfl⟩ | ⟨nonzero, enough, small, rfl⟩
  · simp [zero]
  · have undo : b.undo = true := undo.resolve_right nonzero
    change ((Function.update s.val b.num ((s.val b.num : Int) + b.op).toNat i : Nat) : Int) = _ ∧
      s.undone p b p i = _
    rw [undone, if_pos undo, Function.update_self]
    by_cases same : b.num = i
    · subst same
      rw [Function.update_self, Function.update_self, if_pos rfl]
      exact ⟨by omega, rfl⟩
    · rw [Function.update_of_ne (Ne.symm same), Function.update_of_ne (Ne.symm same), if_neg same]
      exact ⟨by omega, by omega⟩

/-- What a process takes with undo, it has to give back. -/
theorem semop_spec (undo : ∀ b ∈ bs, b.undo = true ∨ b.op = 0) (done : s.semop p bs = .ok t) :
    (∀ i, (t.val i : Int) = s.val i + change i bs ∧ t.adj p i = s.adj p i - change i bs) ∧
      ∀ q, q ≠ p → t.adj q = s.adj q := by
  induction bs generalizing s with
  | nil =>
    obtain rfl := Except.ok.inj done
    exact ⟨fun i => by simp [change], fun q _ => rfl⟩
  | cons b bs ih =>
    obtain ⟨u, first, rest⟩ := semop_cons done
    obtain ⟨here, later⟩ := List.forall_mem_cons.mp undo
    obtain ⟨all, others⟩ := ih later rest
    refine ⟨fun i => ?_, fun q other => (others q other).trans (apply_adj_other first other)⟩
    obtain ⟨val, adj⟩ := apply_spec here first i
    rw [change_cons, (all i).1, (all i).2, val, adj]
    exact ⟨by ring, by ring⟩

/-- An operation of 0 waits for a 0. -/
theorem val_of_semop_wait {undo : Bool} (done : s.semop p (⟨i, 0, undo⟩ :: bs) = .ok t) :
    s.val i = 0 := by
  obtain ⟨u, first, -⟩ := semop_cons done
  rcases apply_cases first with ⟨-, zero, -⟩ | ⟨nonzero, -⟩
  · exact zero
  · exact absurd rfl nonzero

/-! ### What is conserved -/

variable [Fintype Pid]

/-- What a member holds, and what the processes have to give back to it. -/
def total (s : Values Pid ι) (i : ι) : Int := s.val i + ∑ p, s.adj p i

omit [DecidableEq Pid] [DecidableEq ι] in
theorem total_zero (i : ι) : (zero : Values Pid ι).total i = 0 := by simp [total, zero]

omit [DecidableEq ι] in
/-- The adjustments of one process changed. -/
theorem sum_adj_of_others (others : ∀ q, q ≠ p → t.adj q = s.adj q) (i : ι) :
    ∑ q, t.adj q i = ∑ q, s.adj q i - s.adj p i + t.adj p i :=
  Shares.sum_of_others fun q other => by rw [others q other]

theorem total_semop (undo : ∀ b ∈ bs, b.undo = true ∨ b.op = 0) (done : s.semop p bs = .ok t)
    (i : ι) :
    t.total i = s.total i := by
  obtain ⟨all, others⟩ := semop_spec undo done
  rw [total, total, sum_adj_of_others others, (all i).1, (all i).2]
  ring

omit [DecidableEq ι] in
theorem total_exit (enough : 0 ≤ (s.val i : Int) + s.adj p i)
    (small : (s.val i : Int) + s.adj p i ≤ semvmx) :
    (s.exit p).total i = s.total i := by
  have others : ∀ q, q ≠ p → (s.exit p).adj q = s.adj q :=
    fun q other => Function.update_of_ne other _ _
  rw [total, total, sum_adj_of_others others]
  simp only [exit, Function.update_self]
  omega

omit [DecidableEq Pid] in
theorem total_setval {v : Nat} (small : v ≤ semvmx) : (s.setval i v small).total i = v := by
  simp [total, setval, put]

omit [DecidableEq Pid] in
theorem total_setval_other {j : ι} (other : j ≠ i) {v : Nat} (small : v ≤ semvmx) :
    (s.setval i v small).total j = s.total j := by
  simp [total, setval, put, other]

end Values

end SemSet
