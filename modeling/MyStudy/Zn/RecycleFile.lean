import MyStudy.Lib.Bytes
import MyStudy.Lib.Transition
import Mathlib.Data.List.Perm.Basic

/-!
# Handles of a file and their counter

`auto_recycle_file` counts the handles of a file in an `int` they share. The assignment of handles
is the one of the compiler: the one in the source is commented out.
-/
namespace Zn

structure AutoRecycleFile where
  /-- The address in `_recycle_counter`. -/
  recycleCounter : Nat
  filename : Bytes
  deriving DecidableEq, Repr

/-- The handles that live, and the counters by address: the ones allocated so far, `none` for a
freed one. -/
structure Handles where
  files : List AutoRecycleFile
  counters : List (Option Int)
  deriving DecidableEq, Repr

/-- What the language leaves undefined here: a counter is used after it was freed. -/
inductive Fault where
  | usedAfterFree
  deriving DecidableEq, Repr

/-- `*_recycle_counter`. -/
def deref (counters : List (Option Int)) (address : Nat) : Except Fault Int :=
  match counters[address]? with
  | some (some value) => .ok value
  | _ => .error .usedAfterFree

namespace AutoRecycleFile

def counterPlus (file : AutoRecycleFile) (counters : List (Option Int)) :
    Except Fault (List (Option Int)) := do
  if file.filename.length ≠ 0 then
    let value ← deref counters file.recycleCounter
    return counters.set file.recycleCounter (some (value + 1))
  return counters

def counterMinus (file : AutoRecycleFile) (counters : List (Option Int)) :
    Except Fault (List (Option Int)) := do
  if file.filename.length ≠ 0 then
    let value ← deref counters file.recycleCounter
    return counters.set file.recycleCounter (some (value - 1))
  return counters

/-- The destructor. -/
def destroy (file : AutoRecycleFile) (counters : List (Option Int)) :
    Except Fault (List (Option Int)) := do
  let counters ← file.counterMinus counters
  if file.filename.length ≠ 0 then
    if (← deref counters file.recycleCounter) = 0 then
      return counters.set file.recycleCounter none
  return counters

end AutoRecycleFile

/-- What a program does with handles, each given by its place among those that live. -/
inductive HandleOp where
  | construct
  | copy (file : Nat)
  | assign (left right : Nat)
  | bind (file : Nat) (filename : Bytes)
  | destroy (file : Nat)
  deriving DecidableEq, Repr

/-- One operation; there may be no such handle. -/
def HandleOp.exec (s : Handles) : HandleOp → Option (Except Fault Handles)
  | .construct => some (.ok
      { files := s.files ++ [⟨s.counters.length, []⟩]
        counters := s.counters ++ [some 0] })
  | .copy i => do
    let file ← s.files[i]?
    return do
      let counters ← file.counterPlus s.counters
      return { files := s.files ++ [file], counters }
  | .assign i j => do
    let _ ← s.files[i]?
    let file ← s.files[j]?
    return .ok { s with files := s.files.set i file }
  | .bind i filename => do
    let file ← s.files[i]?
    return do
      let counters ← { file with filename }.counterPlus s.counters
      return { files := s.files.set i { file with filename }, counters }
  | .destroy i => do
    let file ← s.files[i]?
    return do
      let counters ← file.destroy s.counters
      return { files := s.files.eraseIdx i, counters }

/-! ### What the counters are for -/

/-- The handle is bound to a file, and its counter has the address. -/
def AutoRecycleFile.Through (file : AutoRecycleFile) (address : Nat) : Prop :=
  file.filename ≠ [] ∧ file.recycleCounter = address

instance (file : AutoRecycleFile) (address : Nat) : Decidable (file.Through address) :=
  inferInstanceAs (Decidable (_ ∧ _))

/-- How many handles are bound through a counter. -/
def boundThrough (files : List AutoRecycleFile) (address : Nat) : Nat :=
  files.countP fun file => file.Through address

/-- How many of them are bound to this file. -/
def boundTo (files : List AutoRecycleFile) (address : Nat) (filename : Bytes) : Nat :=
  files.countP fun file => file.Through address ∧ file.filename = filename

/-- The handles, and the counters that a handle was ever bound through. -/
structure Watched where
  handles : Handles
  used : List Nat

def Watched.after (w : Watched) (s : Handles) : Watched :=
  { handles := s
    used :=
      w.used ++ (s.files.filter fun file => file.filename ≠ []).map AutoRecycleFile.recycleCounter }

/-- An operation, watched; after a use of a freed counter there is no next one. -/
def Watched.step : Except Fault Watched → HandleOp → Option (Except Fault Watched)
  | .error _, _ => none
  | .ok w, op => (op.exec w.handles).map fun done => done.map w.after

def Watched.start : Watched := ⟨⟨[], []⟩, []⟩

/-- The counter of a bound handle is the number of handles bound to the file through it, and the
counters that are freed are those no handle is bound through any more. -/
structure Watched.Recycles (w : Watched) : Prop where
  counts : ∀ file ∈ w.handles.files, file.filename ≠ [] →
    w.handles.counters[file.recycleCounter]? =
      some (some (boundTo w.handles.files file.recycleCounter file.filename : Int))
  freed : ∀ address, w.handles.counters[address]? = some none ↔
    address ∈ w.used ∧ ∀ file ∈ w.handles.files, ¬ file.Through address

/-- No freed counter was used, and the counters are right. -/
def AllRecycled : Except Fault Watched → Prop
  | .ok w => w.Recycles
  | .error _ => False

/-- Handles are bound once, to the file the others of the counter are bound to while it is not
freed, and one handle is assigned to another only if both are unbound or share their counter. -/
def HandleOp.Careful (s : Handles) : HandleOp → Prop
  | .construct | .copy _ | .destroy _ => True
  | .bind i filename => ∀ file, s.files[i]? = some file → file.filename = [] ∧
      (filename = [] ∨ s.counters[file.recycleCounter]? ≠ some none ∧
        ∀ other ∈ s.files, other.Through file.recycleCounter → other.filename = filename)
  | .assign i j => ∀ left right, s.files[i]? = some left → s.files[j]? = some right →
      (left.filename = [] ↔ right.filename = []) ∧
        (left.filename ≠ [] → left.recycleCounter = right.recycleCounter)

def CarefulStep : Except Fault Watched → HandleOp → Prop
  | .ok w, op => op.Careful w.handles
  | .error _, _ => True

/-! ### What an operation does to the counter -/

section Counters

variable {file : AutoRecycleFile} {counters : List (Option Int)} {value : Int}

theorem counterPlus_unbound (unbound : file.filename = []) :
    file.counterPlus counters = .ok counters := by
  rw [AutoRecycleFile.counterPlus, unbound]
  rfl

theorem counterPlus_bound (bound : file.filename ≠ [])
    (held : counters[file.recycleCounter]? = some (some value)) :
    file.counterPlus counters = .ok (counters.set file.recycleCounter (some (value + 1))) := by
  rw [AutoRecycleFile.counterPlus, if_pos (by simpa using bound), deref, held]
  rfl

theorem counterPlus_freed (bound : file.filename ≠ [])
    (freed : counters[file.recycleCounter]? = some none) :
    file.counterPlus counters = .error .usedAfterFree := by
  rw [AutoRecycleFile.counterPlus, if_pos (by simpa using bound), deref, freed]
  rfl

theorem destroy_unbound (unbound : file.filename = []) : file.destroy counters = .ok counters := by
  rw [AutoRecycleFile.destroy, AutoRecycleFile.counterMinus, unbound]
  rfl

theorem destroy_bound (bound : file.filename ≠ [])
    (held : counters[file.recycleCounter]? = some (some value)) :
    file.destroy counters =
      .ok (counters.set file.recycleCounter
      (if value - 1 = 0 then none else some (value - 1))) := by
  have inside := (List.getElem?_eq_some_iff.mp held).1
  have length : file.filename.length ≠ 0 := by simpa using bound
  rw [AutoRecycleFile.destroy, AutoRecycleFile.counterMinus, if_pos length, deref, held]
  change (do
    if file.filename.length ≠ 0 then
      if (← deref (counters.set file.recycleCounter (some (value - 1))) file.recycleCounter) =
        0 then
        return (counters.set file.recycleCounter (some (value - 1))).set file.recycleCounter none
    return counters.set file.recycleCounter (some (value - 1)) : Except Fault (List (Option Int))) =
      _
  rw [if_pos length, deref, List.getElem?_set_self inside]
  by_cases last : value - 1 = 0
  · rw [if_pos last, last, List.set_set]
    rfl
  · rw [if_neg last]
    exact if_neg last

end Counters

/-! ### Counting handles -/

section Counting

variable {files : List AutoRecycleFile} {file old : AutoRecycleFile} {i : Nat}

theorem boundThrough_append (address : Nat) : boundThrough (files ++ [file]) address =
    boundThrough files address + if file.Through address then 1 else 0 := by
  rw [boundThrough, List.countP_append, List.countP_singleton, boundThrough]
  simp only [decide_eq_true_eq]

theorem boundThrough_set (here : files[i]? = some old) (file : AutoRecycleFile) (address : Nat) :
    boundThrough (files.set i file) address + (if old.Through address then 1 else 0) =
      boundThrough files address + if file.Through address then 1 else 0 := by
  obtain ⟨inside, rfl⟩ := List.getElem?_eq_some_iff.mp here
  have least := List.boole_getElem_le_countP (p := fun file => decide (file.Through address)) inside
  rw [boundThrough, boundThrough, List.countP_set inside]
  simp only [decide_eq_true_eq] at least ⊢
  omega

theorem boundThrough_eraseIdx (here : files[i]? = some old) (address : Nat) :
    boundThrough (files.eraseIdx i) address + (if old.Through address then 1 else 0) =
      boundThrough files address := by
  obtain ⟨inside, rfl⟩ := List.getElem?_eq_some_iff.mp here
  rw [boundThrough, boundThrough, ← (List.getElem_cons_eraseIdx_perm inside).countP_eq,
    List.countP_cons]
  simp only [decide_eq_true_eq]

theorem boundThrough_pos (address : Nat) :
    0 < boundThrough files address ↔ ∃ file ∈ files, file.Through address := by
  rw [boundThrough, List.countP_pos_iff]
  simp only [decide_eq_true_eq]

theorem boundThrough_eq_zero (address : Nat) :
    boundThrough files address = 0 ↔ ∀ file ∈ files, ¬ file.Through address := by
  rw [boundThrough, List.countP_eq_zero]
  simp only [decide_eq_true_eq]

theorem not_through (unbound : file.filename = []) (address : Nat) : ¬ file.Through address :=
  fun through => through.1 unbound

theorem boundTo_le (address : Nat) (filename : Bytes) :
    boundTo files address filename ≤ boundThrough files address :=
  List.countP_mono_left fun file _ both => by
    rw [decide_eq_true_eq] at both ⊢
    exact both.1

theorem boundTo_eq_iff (address : Nat) (filename : Bytes) :
    boundTo files address filename = boundThrough files address ↔
      ∀ file ∈ files, file.Through address → file.filename = filename := by
  have filtered : boundTo files address filename =
      (files.filter fun file => file.Through address).countP
        fun file => file.filename = filename := by
    rw [List.countP_filter, boundTo]
    refine List.countP_congr fun file _ => ?_
    simp only [decide_eq_true_eq, Bool.and_eq_true, and_comm]
  rw [filtered, boundThrough, List.countP_eq_length_filter (l := files), List.countP_eq_length]
  simp only [List.mem_filter, decide_eq_true_eq, and_imp]

end Counting

/-! ### The invariant -/

/-- A counter holds the number of handles bound through it. It was used if there are any, and is
freed after it was used and there are none. -/
def Accounts (counter : Option (Option Int)) (bound : Nat) (used : Prop) : Prop :=
  match counter with
  | some (some value) => value = bound ∧ (used ↔ 0 < bound)
  | some none => bound = 0 ∧ used
  | none => bound = 0 ∧ ¬ used

structure Watched.Kept (w : Watched) : Prop where
  inside : ∀ file ∈ w.handles.files, file.recycleCounter < w.handles.counters.length
  accounts : ∀ address,
    Accounts w.handles.counters[address]? (boundThrough w.handles.files address) (address ∈ w.used)
  same : ∀ file ∈ w.handles.files, ∀ other ∈ w.handles.files, file.filename ≠ [] →
    other.Through file.recycleCounter → other.filename = file.filename

def StillKept : Except Fault Watched → Prop
  | .ok w => w.Kept
  | .error _ => False

theorem Accounts.used {counter : Option (Option Int)} {bound : Nat} {used : Prop}
    (accounts : Accounts counter bound used) (some_ : 0 < bound) : used := by
  match counter with
  | some (some value) => exact accounts.2.mpr some_
  | some none => exact accounts.2
  | none => exact absurd some_ (by rw [accounts.1]; decide)

/-- A counter that is not touched. -/
theorem Accounts.still {counter : Option (Option Int)} {bound : Nat} {used : Prop}
    (accounts : Accounts counter bound used) : Accounts counter bound (used ∨ 0 < bound) := by
  rwa [or_iff_left_of_imp accounts.used]

theorem Accounts.held {counter : Option (Option Int)} {bound : Nat} {used : Prop}
    (accounts : Accounts counter bound used) (some_ : 0 < bound) :
    counter = some (some (bound : Int)) := by
  match counter with
  | some (some value) => rw [accounts.1]
  | some none => exact absurd some_ (by rw [accounts.1]; decide)
  | none => exact absurd some_ (by rw [accounts.1]; decide)

theorem mem_used_after (w : Watched) (s : Handles) (address : Nat) :
    address ∈ (w.after s).used ↔ address ∈ w.used ∨ 0 < boundThrough s.files address := by
  simp only [Watched.after, List.mem_append, List.mem_map, List.mem_filter, decide_eq_true_eq,
    boundThrough_pos, AutoRecycleFile.Through, and_assoc]

namespace Watched.Kept

variable {w : Watched} {file : AutoRecycleFile}

/-- The counter of a bound handle. -/
theorem held (kept : w.Kept) (member : file ∈ w.handles.files) (bound : file.filename ≠ []) :
    0 < boundThrough w.handles.files file.recycleCounter ∧
      w.handles.counters[file.recycleCounter]? =
      some (some (boundThrough w.handles.files file.recycleCounter : Int)) := by
  have some_ := (boundThrough_pos file.recycleCounter).mpr ⟨file, member, bound, rfl⟩
  exact ⟨some_, (kept.accounts _).held some_⟩

/-- The counter of any handle. -/
theorem freed_or_held (kept : w.Kept) (member : file ∈ w.handles.files) :
    w.handles.counters[file.recycleCounter]? = some none ∨
      w.handles.counters[file.recycleCounter]? =
      some (some (boundThrough w.handles.files file.recycleCounter : Int)) := by
  have accounts := kept.accounts file.recycleCounter
  match counter : w.handles.counters[file.recycleCounter]? with
  | some (some value) =>
    rw [counter] at accounts
    rw [accounts.1]
    exact .inr rfl
  | some none => exact .inl rfl
  | none =>
    exact absurd (kept.inside file member) (not_lt.mpr (List.getElem?_eq_none_iff.mp counter))

theorem boundTo_eq (kept : w.Kept) (member : file ∈ w.handles.files) (bound : file.filename ≠ []) :
    boundTo w.handles.files file.recycleCounter file.filename =
      boundThrough w.handles.files file.recycleCounter :=
  (boundTo_eq_iff _ _).mpr fun other among => kept.same file member other among bound

theorem recycles (kept : w.Kept) : w.Recycles := by
  refine ⟨fun file member bound => ?_, fun address => ?_⟩
  · rw [kept.boundTo_eq member bound]
    exact (kept.held member bound).2
  · have accounts := kept.accounts address
    rw [← boundThrough_eq_zero]
    match counter : w.handles.counters[address]? with
    | some (some value) =>
      rw [counter] at accounts
      have used := accounts.2
      constructor
      · nofun
      · rintro ⟨ever, zero⟩
        rw [used, zero] at ever
        exact absurd ever (by decide)
    | some none =>
      rw [counter] at accounts
      exact iff_of_true rfl ⟨accounts.2, accounts.1⟩
    | none =>
      rw [counter] at accounts
      exact iff_of_false nofun fun both => accounts.2 both.1

/-- The counters are the ones of before, and so are the numbers. -/
theorem after_still (kept : w.Kept) {files : List AutoRecycleFile}
    (inside : ∀ file ∈ files, file.recycleCounter < w.handles.counters.length)
    (same : ∀ file ∈ files, ∀ other ∈ files, file.filename ≠ [] →
      other.Through file.recycleCounter →
      other.filename = file.filename)
    (numbers : ∀ address, boundThrough files address = boundThrough w.handles.files address) :
    (w.after ⟨files, w.handles.counters⟩).Kept := by
  refine ⟨inside, fun address => ?_, same⟩
  rw [mem_used_after, show (w.after ⟨files, w.handles.counters⟩).handles.files = files from rfl,
    numbers]
  exact (kept.accounts address).still

/-- One counter is written, and only the number of its handles is another one. -/
theorem after_set (kept : w.Kept) {files : List AutoRecycleFile} {place : Nat}
    {counter : Option Int}
    (inside : ∀ file ∈ files, file.recycleCounter < w.handles.counters.length)
    (same : ∀ file ∈ files, ∀ other ∈ files, file.filename ≠ [] →
      other.Through file.recycleCounter →
      other.filename = file.filename)
    (allocated : place < w.handles.counters.length)
    (numbers : ∀ address, address ≠ place →
      boundThrough files address = boundThrough w.handles.files address)
    (here : Accounts (some counter) (boundThrough files place)
      (place ∈ w.used ∨ 0 < boundThrough files place)) :
    (w.after ⟨files, w.handles.counters.set place counter⟩).Kept := by
  refine ⟨fun file member => ?_, fun address => ?_, same⟩
  · exact (inside file member).trans_eq List.length_set.symm
  · rw [mem_used_after]
    change Accounts (w.handles.counters.set place counter)[address]? (boundThrough files address)
      (address ∈ w.used ∨ 0 < boundThrough files address)
    by_cases this : address = place
    · rw [this, List.getElem?_set_self allocated]
      exact here
    · rw [List.getElem?_set_ne (Ne.symm this), numbers address this]
      exact (kept.accounts address).still

theorem construct (kept : w.Kept) :
    (w.after
      { files := w.handles.files ++ [⟨w.handles.counters.length, []⟩]
        counters := w.handles.counters ++ [some 0] }).Kept := by
  -- the new handle has no name and binds nothing
  have numbers (address : Nat) :
    boundThrough (w.handles.files ++ [⟨w.handles.counters.length, []⟩]) address =
      boundThrough w.handles.files address := by
    rw [boundThrough_append, if_neg (not_through rfl address), Nat.add_zero]
  refine ⟨fun file member => ?_, fun address => ?_, fun file member other among bound through => ?_⟩
  · change file.recycleCounter < (w.handles.counters ++ [some 0]).length
    rw [List.length_append, List.length_singleton]
    rcases List.mem_append.mp member with old | new
    · exact (kept.inside file old).trans (Nat.lt_succ_self _)
    · rw [List.mem_singleton.mp new]
      exact Nat.lt_succ_self _
  · rw [mem_used_after]
    change Accounts (w.handles.counters ++ [some 0])[address]?
      (boundThrough (w.handles.files ++ [_]) address)
      (address ∈ w.used ∨ 0 < boundThrough (w.handles.files ++ [_]) address)
    rw [numbers]
    have accounts := kept.accounts address
    rcases Nat.lt_trichotomy address w.handles.counters.length with below | rfl | above
    · rw [List.getElem?_append_left below]
      exact accounts.still
    · -- the new address was not there, so nothing is counted
      rw [List.getElem?_eq_none le_rfl] at accounts
      rw [List.getElem?_concat_length, accounts.1]
      exact ⟨rfl, or_iff_right accounts.2⟩
    · rw [List.getElem?_eq_none (by rw [List.length_append, List.length_singleton]; exact above)]
      rw [List.getElem?_eq_none above.le] at accounts
      exact accounts.still
  · have old (f : AutoRecycleFile) (member :
      f ∈ w.handles.files ++ [⟨w.handles.counters.length, []⟩])
        (bound : f.filename ≠ []) : f ∈ w.handles.files := by
      rcases List.mem_append.mp member with old | new
      · exact old
      · rw [List.mem_singleton.mp new] at bound
        exact absurd rfl bound
    exact kept.same file (old file member bound) other (old other among through.1) bound through

end Watched.Kept

/-! ### Steps -/

section Steps

variable {w : Watched} {t : Except Fault Watched} {i j : Nat} {filename : Bytes}

theorem step_copy (next : Watched.step (.ok w) (.copy i) = some t) :
    ∃ file, w.handles.files[i]? = some file ∧ t = (file.counterPlus w.handles.counters).map
      fun counters => w.after ⟨w.handles.files ++ [file], counters⟩ := by
  obtain ⟨done, run, rfl⟩ := Option.map_eq_some_iff.mp next
  obtain ⟨file, here, rest⟩ := Option.bind_eq_some_iff.mp run
  obtain rfl := Option.some.inj rest
  refine ⟨file, here, ?_⟩
  cases file.counterPlus w.handles.counters <;> rfl

theorem step_assign (next : Watched.step (.ok w) (.assign i j) = some t) :
    ∃ left right, w.handles.files[i]? = some left ∧ w.handles.files[j]? = some right ∧
      t = .ok (w.after ⟨w.handles.files.set i right, w.handles.counters⟩) := by
  obtain ⟨done, run, rfl⟩ := Option.map_eq_some_iff.mp next
  obtain ⟨left, here, rest⟩ := Option.bind_eq_some_iff.mp run
  obtain ⟨right, there, rest⟩ := Option.bind_eq_some_iff.mp rest
  obtain rfl := Option.some.inj rest
  exact ⟨left, right, here, there, rfl⟩

theorem step_bind (next : Watched.step (.ok w) (.bind i filename) = some t) :
    ∃ file, w.handles.files[i]? = some file ∧
      t = ({ file with filename }.counterPlus w.handles.counters).map
      fun counters => w.after ⟨w.handles.files.set i { file with filename }, counters⟩ := by
  obtain ⟨done, run, rfl⟩ := Option.map_eq_some_iff.mp next
  obtain ⟨file, here, rest⟩ := Option.bind_eq_some_iff.mp run
  obtain rfl := Option.some.inj rest
  refine ⟨file, here, ?_⟩
  cases { file with filename }.counterPlus w.handles.counters <;> rfl

theorem step_destroy (next : Watched.step (.ok w) (.destroy i) = some t) :
    ∃ file, w.handles.files[i]? = some file ∧ t = (file.destroy w.handles.counters).map
      fun counters => w.after ⟨w.handles.files.eraseIdx i, counters⟩ := by
  obtain ⟨done, run, rfl⟩ := Option.map_eq_some_iff.mp next
  obtain ⟨file, here, rest⟩ := Option.bind_eq_some_iff.mp run
  obtain rfl := Option.some.inj rest
  refine ⟨file, here, ?_⟩
  cases file.destroy w.handles.counters <;> rfl

/-- One handle more through its counter. -/
theorem Accounts.plus {n : Nat} {used : Prop} :
    Accounts (some (some ((n : Int) + 1))) (n + 1) (used ∨ 0 < n + 1) :=
  ⟨by rw [Nat.cast_add_one], or_iff_right_of_imp fun _ => n.succ_pos⟩

/-- One handle less; the last one frees the counter. -/
theorem Accounts.minus {n : Nat} {used : Prop} (ever : used) :
    Accounts
      (some (if ((n + 1 : Nat) : Int) - 1 = 0 then none else some (((n + 1 : Nat) : Int) - 1))) n
      (used ∨ 0 < n) := by
  by_cases last : n = 0
  · rw [if_pos (by omega)]
    exact ⟨last, .inl ever⟩
  · rw [if_neg (by omega)]
    exact ⟨by omega, iff_of_true (.inl ever) (Nat.pos_of_ne_zero last)⟩

namespace Watched.Kept

variable (kept : w.Kept)
include kept

theorem copy {file : AutoRecycleFile} (here : w.handles.files[i]? = some file) :
    StillKept ((file.counterPlus w.handles.counters).map
      fun counters => w.after ⟨w.handles.files ++ [file], counters⟩) := by
  have member := List.mem_of_getElem? here
  have old (f : AutoRecycleFile) (among : f ∈ w.handles.files ++ [file]) : f ∈ w.handles.files := by
    rcases List.mem_append.mp among with old | new
    · exact old
    · rwa [List.mem_singleton.mp new]
  have inside (f : AutoRecycleFile) (among : f ∈ w.handles.files ++ [file]) :=
    kept.inside f (old f among)
  have same (f : AutoRecycleFile) (among : f ∈ w.handles.files ++ [file]) (g : AutoRecycleFile)
      (among' : g ∈ w.handles.files ++ [file]) := kept.same f (old f among) g (old g among')
  by_cases bound : file.filename = []
  · rw [counterPlus_unbound bound]
    refine kept.after_still inside same fun address => ?_
    rw [boundThrough_append, if_neg (not_through bound address), Nat.add_zero]
  · rw [counterPlus_bound bound (kept.held member bound).2]
    refine kept.after_set inside same (kept.inside file member) (fun address other => ?_) ?_
    · rw [boundThrough_append, if_neg fun through => other through.2.symm, Nat.add_zero]
    · rw [boundThrough_append, if_pos ⟨bound, rfl⟩]
      exact .plus

theorem assign {left right : AutoRecycleFile} (here : w.handles.files[i]? = some left)
    (there : w.handles.files[j]? = some right) (unbound : left.filename = [] ↔ right.filename = [])
    (shared : left.filename ≠ [] → left.recycleCounter = right.recycleCounter) :
    (w.after ⟨w.handles.files.set i right, w.handles.counters⟩).Kept := by
  have old (f : AutoRecycleFile) (among : f ∈ w.handles.files.set i right) :
      f ∈ w.handles.files := by
    rcases List.mem_or_eq_of_mem_set among with old | rfl
    · exact old
    · exact List.mem_of_getElem? there
  refine kept.after_still (fun f among => kept.inside f (old f among))
    (fun f among g among' => kept.same f (old f among) g (old g among')) fun address => ?_
  have alike : left.Through address ↔ right.Through address := by
    rw [AutoRecycleFile.Through, AutoRecycleFile.Through, ne_eq, ne_eq, unbound]
    exact and_congr_right fun bound => by rw [shared (unbound.not.mpr bound)]
  have numbers := boundThrough_set here right address
  rw [if_congr alike rfl rfl] at numbers
  exact Nat.add_right_cancel numbers

theorem bind {file : AutoRecycleFile} (here : w.handles.files[i]? = some file)
    (unbound : file.filename = [])
    (ready : filename = [] ∨ w.handles.counters[file.recycleCounter]? ≠ some none ∧
      ∀ other ∈ w.handles.files, other.Through file.recycleCounter → other.filename = filename) :
    StillKept (({ file with filename }.counterPlus w.handles.counters).map
      fun counters => w.after ⟨w.handles.files.set i { file with filename }, counters⟩) := by
  have member := List.mem_of_getElem? here
  have inside (f : AutoRecycleFile) (among : f ∈ w.handles.files.set i { file with filename }) :
      f.recycleCounter < w.handles.counters.length := by
    rcases List.mem_or_eq_of_mem_set among with old | rfl
    · exact kept.inside f old
    · exact kept.inside file member
  -- the file gets the name that all others through its counter have
  have same (f : AutoRecycleFile) (among : f ∈ w.handles.files.set i { file with filename })
      (g : AutoRecycleFile) (among' : g ∈ w.handles.files.set i { file with filename })
      (bound : f.filename ≠ [])
      (through : g.Through f.recycleCounter) : g.filename = f.filename := by
    have ready' (some_ : filename ≠ []) := (ready.resolve_left some_).2
    rcases List.mem_or_eq_of_mem_set among with old | rfl
    · rcases List.mem_or_eq_of_mem_set among' with old' | rfl
      · exact kept.same f old g old' bound through
      · exact (ready' through.1 f old ⟨bound, through.2.symm⟩).symm
    · rcases List.mem_or_eq_of_mem_set among' with old' | rfl
      · exact ready' bound g old' through
      · rfl
  have numbers (address : Nat) := boundThrough_set here { file with filename } address
  simp only [if_neg (not_through unbound _), Nat.add_zero] at numbers
  by_cases none_ : filename = []
  · rw [counterPlus_unbound none_]
    refine kept.after_still inside same fun address => ?_
    rw [numbers, if_neg (not_through none_ address), Nat.add_zero]
  · -- one more handle is bound, and the counter counts it
    have allocated := kept.inside file member
    have held := (kept.freed_or_held member).resolve_left (ready.resolve_left none_).1
    rw [@counterPlus_bound { file with filename } _ _ none_ held]
    refine kept.after_set inside same allocated (fun address other => ?_) ?_
    · rw [numbers, if_neg fun through => other through.2.symm, Nat.add_zero]
    · rw [numbers, if_pos ⟨none_, rfl⟩]
      exact .plus

theorem destroy {file : AutoRecycleFile} (here : w.handles.files[i]? = some file) :
    StillKept ((file.destroy w.handles.counters).map
      fun counters => w.after ⟨w.handles.files.eraseIdx i, counters⟩) := by
  have member := List.mem_of_getElem? here
  have old (f : AutoRecycleFile) (among : f ∈ w.handles.files.eraseIdx i) : f ∈ w.handles.files :=
    List.mem_of_mem_eraseIdx among
  have inside (f : AutoRecycleFile) (among : f ∈ w.handles.files.eraseIdx i) :=
    kept.inside f (old f among)
  have same (f : AutoRecycleFile) (among : f ∈ w.handles.files.eraseIdx i) (g : AutoRecycleFile)
      (among' : g ∈ w.handles.files.eraseIdx i) := kept.same f (old f among) g (old g among')
  have numbers := boundThrough_eraseIdx here
  by_cases bound : file.filename = []
  · rw [destroy_unbound bound]
    refine kept.after_still inside same fun address => ?_
    rw [← numbers, if_neg (not_through bound address), Nat.add_zero]
  · have through : file.Through file.recycleCounter := ⟨bound, rfl⟩
    have here := numbers file.recycleCounter
    rw [if_pos through] at here
    rw [destroy_bound bound (kept.held member bound).2, ← here]
    refine kept.after_set inside same (kept.inside file member) (fun address other => ?_) ?_
    · rw [← numbers address, if_neg fun through => other through.2.symm, Nat.add_zero]
    · exact .minus ((kept.accounts _).used (kept.held member bound).1)

end Watched.Kept

/-- A counter in use is not above the number of its handles. -/
theorem Watched.Recycles.least (recycles : w.Recycles) {address : Nat} {value : Int}
    (ever : address ∈ w.used) (held : w.handles.counters[address]? = some (some value)) :
    value ≤ boundThrough w.handles.files address := by
  by_cases none_ : boundThrough w.handles.files address = 0
  · have freed := (recycles.freed address).mpr ⟨ever, (boundThrough_eq_zero address).mp none_⟩
    rw [held] at freed
    cases freed
  · obtain ⟨file, member, bound, rfl⟩ := (boundThrough_pos address).mp (Nat.pos_of_ne_zero none_)
    have counts := recycles.counts file member bound
    rw [held, Option.some_inj, Option.some_inj] at counts
    rw [counts]
    exact_mod_cast boundTo_le _ _

namespace Watched.Kept

variable (kept : w.Kept)
include kept

/-- An assignment that leaves the counters right. -/
theorem careful_assign {left right : AutoRecycleFile} (here : w.handles.files[i]? = some left)
    (there : w.handles.files[j]? = some right)
    (recycles : (w.after ⟨w.handles.files.set i right, w.handles.counters⟩).Recycles) :
    (left.filename = [] ↔ right.filename = []) ∧
      (left.filename ≠ [] → left.recycleCounter = right.recycleCounter) := by
  have numbers := boundThrough_set here right
  by_cases bound : left.filename = []
  · by_cases bound' : right.filename = []
    · exact ⟨iff_of_true bound bound', fun some_ => absurd bound some_⟩
    -- the counter of the right one has one handle more
    · have more := numbers right.recycleCounter
      rw [if_neg (not_through bound _), if_pos ⟨bound', rfl⟩] at more
      have inside := (List.getElem?_eq_some_iff.mp here).1
      have counts := recycles.counts right (List.mem_set inside right) bound'
      have held := (kept.held (List.mem_of_getElem? there) bound').2
      have all : boundTo (w.handles.files.set i right) right.recycleCounter right.filename =
          boundThrough (w.handles.files.set i right) right.recycleCounter :=
        (boundTo_eq_iff _ _).mpr fun other among => by
          rcases List.mem_or_eq_of_mem_set among with old | rfl
          · exact kept.same right (List.mem_of_getElem? there) other old bound'
          · exact fun _ => rfl
      have same := held.symm.trans counts
      rw [Option.some_inj, Option.some_inj] at same
      change (_ : Int) =
        (boundTo (w.handles.files.set i right) right.recycleCounter right.filename : Int) at same
      rw [all] at same
      omega
  -- the counter of the left one loses it, unless the right one has it too
  · have fewer := numbers left.recycleCounter
    obtain ⟨some_, held⟩ := kept.held (List.mem_of_getElem? here) bound
    have ever :=
      (mem_used_after w ⟨w.handles.files.set i right, w.handles.counters⟩ left.recycleCounter).mpr
      (.inl ((kept.accounts _).used some_))
    have least := recycles.least ever held
    change (_ : Int) ≤ (boundThrough (w.handles.files.set i right) left.recycleCounter :
      Int) at least
    rw [if_pos ⟨bound, rfl⟩] at fewer
    have through : right.Through left.recycleCounter := by
      by_contra other
      rw [if_neg other] at fewer
      omega
    exact ⟨iff_of_false bound through.1, fun _ => through.2.symm⟩

/-- A handle that is bound again leaves its counter wrong. -/
theorem not_rebound {file : AutoRecycleFile} (here : w.handles.files[i]? = some file)
    (bound : file.filename ≠ []) :
    ¬ AllRecycled (({ file with filename }.counterPlus w.handles.counters).map
      fun counters => w.after ⟨w.handles.files.set i { file with filename }, counters⟩) := by
  intro recycles
  have numbers := boundThrough_set here { file with filename } file.recycleCounter
  have member := List.mem_of_getElem? here
  obtain ⟨some_, held⟩ := kept.held member bound
  have ever := (kept.accounts _).used some_
  rw [if_pos ⟨bound, rfl⟩] at numbers
  by_cases none_ : filename = []
  · rw [@counterPlus_unbound { file with filename } _ none_] at recycles
    have least := recycles.least ((mem_used_after w _ _).mpr (.inl ever)) held
    rw [if_neg (not_through none_ _)] at numbers
    change (_ : Int) ≤
      (boundThrough (w.handles.files.set i { file with filename }) file.recycleCounter :
        Int) at least
    omega
  · rw [@counterPlus_bound { file with filename } _ _ none_ held] at recycles
    have least := recycles.least ((mem_used_after w _ _).mpr (.inl ever))
      (List.getElem?_set_self (kept.inside file member))
    rw [if_pos ⟨none_, rfl⟩] at numbers
    change (_ : Int) ≤
      (boundThrough (w.handles.files.set i { file with filename }) file.recycleCounter :
        Int) at least
    omega

/-- A binding that leaves the counters right. -/
theorem careful_bind {file : AutoRecycleFile} (here : w.handles.files[i]? = some file)
    (recycles : AllRecycled (({ file with filename }.counterPlus w.handles.counters).map
      fun counters => w.after ⟨w.handles.files.set i { file with filename }, counters⟩)) :
    file.filename = [] ∧ (filename = [] ∨ w.handles.counters[file.recycleCounter]? ≠ some none ∧
      ∀ other ∈ w.handles.files, other.Through file.recycleCounter →
        other.filename = filename) := by
  have inside := (List.getElem?_eq_some_iff.mp here).1
  have member := List.mem_of_getElem? here
  have unbound : file.filename = [] := by
    by_contra bound
    exact kept.not_rebound here bound recycles
  refine ⟨unbound, or_iff_not_imp_left.mpr fun some_ => ?_⟩
  rcases kept.freed_or_held member with freed | held
  · rw [@counterPlus_freed { file with filename } _ some_ freed] at recycles
    exact recycles.elim
  · refine ⟨by rw [held]; nofun, ?_⟩
    rw [@counterPlus_bound { file with filename } _ _ some_ held] at recycles
    have numbers := boundThrough_set here { file with filename } file.recycleCounter
    rw [if_neg (not_through unbound _), if_pos ⟨some_, rfl⟩] at numbers
    -- the counter is the number of the handles with this name, and that of all through it
    have counts := recycles.counts _ (List.mem_set inside _) some_
    change (w.handles.counters.set file.recycleCounter (some _))[file.recycleCounter]? =
      some (some (boundTo (w.handles.files.set i { file with filename }) file.recycleCounter
        filename : Int)) at counts
    rw [List.getElem?_set_self (kept.inside file member), Option.some_inj, Option.some_inj]
      at counts
    have all : ∀ other ∈ w.handles.files.set i { file with filename },
      other.Through file.recycleCounter →
        other.filename = filename := (boundTo_eq_iff _ _).mp (by omega)
    intro other among through
    obtain ⟨k, there⟩ := List.mem_iff_getElem?.mp among
    -- the other handle is bound, so it is not this one
    have apart : i ≠ k := by
      rintro rfl
      obtain rfl := Option.some.inj (here.symm.trans there)
      exact through.1 unbound
    have still : (w.handles.files.set i { file with filename })[k]? = some other := by
      rw [List.getElem?_set_ne apart]
      exact there
    exact all other (List.mem_of_getElem? still) through

end Watched.Kept

end Steps

/-! ### Runs -/

/-- What is there at the start. -/
theorem kept_start : Watched.start.Kept := ⟨nofun, fun _ => ⟨rfl, nofun⟩, nofun⟩

/-- A careful operation keeps the invariant. -/
theorem kept_step (s : Except Fault Watched) (op : HandleOp) (t : Except Fault Watched)
    (kept : StillKept s) (careful : CarefulStep s op) (next : Watched.step s op = some t) :
    StillKept t := by
  cases s with
  | error fault => cases next
  | ok w =>
    cases op with
    | construct =>
      cases next
      exact kept.construct
    | copy i =>
      obtain ⟨file, here, rfl⟩ := step_copy next
      exact kept.copy here
    | assign i j =>
      obtain ⟨left, right, here, there, rfl⟩ := step_assign next
      obtain ⟨unbound, shared⟩ := careful left right here there
      exact kept.assign here there unbound shared
    | bind i filename =>
      obtain ⟨file, here, rfl⟩ := step_bind next
      obtain ⟨unbound, ready⟩ := careful file here
      exact kept.bind here unbound ready
    | destroy i =>
      obtain ⟨file, here, rfl⟩ := step_destroy next
      exact kept.destroy here

theorem StillKept.recycles (s : Except Fault Watched) (kept : StillKept s) : AllRecycled s := by
  cases s with
  | error fault => exact kept
  | ok w => exact Watched.Kept.recycles kept

/-- An operation after which the counters are right was careful. -/
theorem careful_step (s : Except Fault Watched) (op : HandleOp) (t : Except Fault Watched)
    (kept : StillKept s) (next : Watched.step s op = some t) (recycles : AllRecycled t) :
    CarefulStep s op := by
  cases s with
  | error fault => cases next
  | ok w =>
    cases op with
    | construct | copy _ | destroy _ => trivial
    | assign i j =>
      intro left right here there
      obtain ⟨left', right', here', there', rfl⟩ := step_assign next
      obtain rfl := Option.some.inj (here.symm.trans here')
      obtain rfl := Option.some.inj (there.symm.trans there')
      exact kept.careful_assign here there recycles
    | bind i filename =>
      intro file here
      obtain ⟨file', here', rfl⟩ := step_bind next
      obtain rfl := Option.some.inj (here.symm.trans here')
      exact kept.careful_bind here recycles

/-- The counters are right in all states of a run exactly if all its operations are careful ones. -/
theorem recycled_iff (ops : List HandleOp) :
    Transition.Throughout Watched.step AllRecycled (.ok .start) ops ↔
      Transition.EachStep Watched.step CarefulStep (.ok .start) ops :=
  Transition.throughout_iff_eachStep kept_step StillKept.recycles careful_step _ ops kept_start

/-- A handle is assigned one that is bound: when both are destroyed the counter is used after it was
freed. -/
theorem used_after_assignment :
    ¬ ∀ ops, Transition.Throughout Watched.step AllRecycled (.ok .start) ops :=
  fun all =>
  (all [.construct, .construct, .bind 0 (ascii "mail"), .assign 1 0, .destroy 1,
    .destroy 0]).reached rfl

end Zn
