import MyStudy.Lib.Bytes

/-!
# Programs on shared files

A program reads and writes files and takes record locks on ranges of their bytes, one operation
after the other. It is the tree of what it does with each answer, so that other programs may come in
between any two operations; `run` is a run that nobody disturbs.
-/

namespace FileProgram

variable {File E α β : Type}

/-! ### Operations -/

inductive LockKind where
  | read
  | write
  deriving DecidableEq, Repr

/-- The bytes of a record lock; a length of 0 reaches to the end of the file and beyond. -/
structure Range (File : Type) where
  file : File
  start : Nat
  len : Nat
  deriving DecidableEq, Repr

def Range.Covers (range : Range File) (file : File) (i : Nat) : Prop :=
  range.file = file ∧ range.start ≤ i ∧ (range.len = 0 ∨ i < range.start + range.len)

inductive Op (File : Type) where
  | size (file : File)
  | pread (file : File) (offset len : Nat)
  | pwrite (file : File) (offset : Nat) (data : Bytes)
  | lock (range : Range File) (kind : LockKind)
  | unlock (range : Range File)

/-- What an operation answers. -/
abbrev Op.Result : Op File → Type
  | .size _ => Nat
  | .pread .. => Bytes
  | .pwrite .. => Unit
  | .lock .. => Unit
  | .unlock _ => Unit

/-- A program that returns a value, or stops for good. -/
inductive Prog (File E α : Type) where
  | ret (a : α)
  | stop (why : E)
  | op (o : Op File) (next : o.Result → Prog File E α)

namespace Prog

def bind : Prog File E α → (α → Prog File E β) → Prog File E β
  | .ret a, f => f a
  | .stop why, _ => .stop why
  | .op o next, f => .op o fun r => (next r).bind f

instance : Monad (Prog File E) where
  pure := .ret
  bind := bind

@[simp] theorem ret_bind (a : α) (f : α → Prog File E β) : (Prog.ret a).bind f = f a := rfl

@[simp] theorem op_bind (o : Op File) (next : o.Result → Prog File E α) (f : α → Prog File E β) :
    (Prog.op o next).bind f = .op o fun r => (next r).bind f := rfl

theorem bind_assoc {γ : Type} (p : Prog File E α) (f : α → Prog File E β) (g : β → Prog File E γ) :
    (p.bind f).bind g = p.bind fun a => (f a).bind g := by
  induction p with
  | ret a => rfl
  | stop why => rfl
  | op o next ih => exact congrArg (Prog.op o) (funext ih)

theorem bind_ret (p : Prog File E α) : p.bind .ret = p := by
  induction p with
  | ret a => rfl
  | stop why => rfl
  | op o next ih => exact congrArg (Prog.op o) (funext ih)

end Prog

/-! ### Files -/

abbrev Files (File : Type) := File → Bytes

/-- A write past the end fills the gap with zeros, but for one of nothing. -/
def overwrite (content : Bytes) (offset : Nat) (data : Bytes) : Bytes :=
  if data = [] then content
  else
    (content ++ List.replicate (offset - content.length) 0).take offset ++ data ++
      content.drop (offset + data.length)

variable [DecidableEq File]

/-- What an operation answers, and the files it leaves. -/
def Op.exec : (o : Op File) → Files File → o.Result × Files File
  | .size file, files => ((files file).length, files)
  | .pread file offset len, files => (((files file).drop offset).take len, files)
  | .pwrite file offset data, files =>
    ((), Function.update files file (overwrite (files file) offset data))
  | .lock .., files => ((), files)
  | .unlock _, files => ((), files)

/-- A run of a program alone: it gets every lock. -/
def Prog.run : Prog File E α → Files File → Except E α × Files File
  | .ret a, files => (.ok a, files)
  | .stop why, files => (.error why, files)
  | .op o next, files => (next (o.exec files).1).run (o.exec files).2

/-- The ranges that are locked after an operation. -/
def Op.ranges : Op File → List (Range File) → List (Range File)
  | .lock range _, held => range :: held
  | .unlock range, held => held.filter (· ≠ range)
  | _, held => held

/-- The ranges that a run of a program alone leaves locked. -/
def Prog.unreleased : Prog File E α → Files File → List (Range File) → List (Range File)
  | .ret _, _, held => held
  | .stop _, _, held => held
  | .op o next, files, held => (next (o.exec files).1).unreleased (o.exec files).2 (o.ranges held)

theorem Prog.run_bind (p : Prog File E α) (f : α → Prog File E β) (files : Files File) :
    (p.bind f).run files =
      match p.run files with
      | (.ok a, files) => (f a).run files
      | (.error why, files) => (.error why, files) := by
  induction p generalizing files with
  | ret a => rfl
  | stop why => rfl
  | op o next ih => exact ih _ _

theorem getElem?_overwrite (content : Bytes) (offset : Nat) (data : Bytes)
    (within : offset ≤ content.length) (i : Nat) : (overwrite content offset data)[i]? =
      if offset ≤ i ∧ i < offset + data.length then data[i - offset]? else content[i]? := by
  by_cases nothing : data = []
  · subst nothing
    rw [overwrite, if_pos rfl, if_neg (by simp)]
  have front : ((content ++ List.replicate (offset - content.length) 0).take offset) =
      content.take offset := by
    rw [List.take_append_of_le_length within]
  have len : (content.take offset).length = offset := by
    rw [List.length_take, min_eq_left within]
  rw [overwrite, if_neg nothing, front]
  by_cases before : i < offset
  · rw [if_neg (by omega), List.append_assoc, List.getElem?_append_left (by omega),
      List.getElem?_take_of_lt before]
  · rw [List.append_assoc, List.getElem?_append_right (by omega), len]
    by_cases inside : i < offset + data.length
    · rw [if_pos ⟨by omega, inside⟩, List.getElem?_append_left (by omega)]
    · rw [if_neg (by omega), List.getElem?_append_right (by omega), List.getElem?_drop]
      congr 1
      omega

theorem length_overwrite (content : Bytes) (offset : Nat) (data : Bytes)
    (within : offset ≤ content.length) :
    (overwrite content offset data).length = max content.length (offset + data.length) := by
  by_cases nothing : data = []
  · subst nothing
    rw [overwrite, if_pos rfl, List.length_nil]
    omega
  rw [overwrite, if_neg nothing, List.length_append, List.length_append, List.length_take,
    List.length_append, List.length_replicate, List.length_drop]
  omega

end FileProgram
