import Mathlib
import MyStudy.Lib.Bytes

/-!
# Names and files

A directory gives names to files. A file is there as long as somebody has it open, whatever becomes
of its name. No file has two names.
-/

/-- The files that were ever made are numbered. -/
structure Directory (Name : Type) [DecidableEq Name] where
  entries : AList fun _ : Name => Nat
  content : Nat → Bytes
  made : Nat
  known : ∀ n i, entries.lookup n = some i → i < made
  alone : ∀ m n i, entries.lookup m = some i → entries.lookup n = some i → m = n

namespace Directory

variable {Name : Type} [DecidableEq Name] {d : Directory Name} {m n : Name} {i j : Nat}

theorem nothing_known (n : Name) (i : Nat)
    (found : (∅ : AList fun _ : Name => Nat).lookup n = some i) : i < 0 := by
  simp at found

theorem nothing_twice (m n : Name) (i : Nat)
    (found : (∅ : AList fun _ : Name => Nat).lookup m = some i)
    (_ : (∅ : AList fun _ : Name => Nat).lookup n = some i) : m = n := by
  simp at found

def empty : Directory Name where
  entries := ∅
  content _ := []
  made := 0
  known := nothing_known
  alone := nothing_twice

/-- `open`. -/
def find (d : Directory Name) (n : Name) : Option Nat := d.entries.lookup n

/-- What the file of a name holds. -/
def text (d : Directory Name) (n : Name) : Option Bytes := (d.find n).map d.content

/-- A file gets another content. -/
def put (d : Directory Name) (i : Nat) (bytes : Bytes) : Directory Name :=
  { d with content := Function.update d.content i bytes }

/-- A new file with a name. -/
def make (d : Directory Name) (n : Name) : Directory Name where
  entries := d.entries.insert n d.made
  content := Function.update d.content d.made []
  made := d.made + 1
  known m i found := by
    by_cases same : m = n
    · rw [same, AList.lookup_insert, Option.some_inj] at found
      omega
    · rw [AList.lookup_insert_ne same] at found
      exact Nat.lt_succ_of_lt (d.known m i found)
  alone a b i first second := by
    -- the new file is not one that already had a name
    have old {m : Name} (found : d.entries.lookup m = some d.made) : False :=
      Nat.lt_irrefl _ (d.known m d.made found)
    by_cases here : a = n <;> by_cases there : b = n
    · exact here.trans there.symm
    · rw [here, AList.lookup_insert, Option.some_inj] at first
      rw [AList.lookup_insert_ne there, ← first] at second
      exact (old second).elim
    · rw [there, AList.lookup_insert, Option.some_inj] at second
      rw [AList.lookup_insert_ne here, ← second] at first
      exact (old first).elim
    · rw [AList.lookup_insert_ne here] at first
      rw [AList.lookup_insert_ne there] at second
      exact d.alone a b i first second

/-- `creat`: a file that is there is made empty. -/
def creat (d : Directory Name) (n : Name) : Directory Name × Nat :=
  match d.find n with
  | some i => (d.put i [], i)
  | none => (d.make n, d.made)

/-- `write` at an offset. -/
def write (d : Directory Name) (i off : Nat) (bytes : Bytes) : Directory Name :=
  d.put i ((d.content i).takeD off 0 ++ bytes ++ (d.content i).drop (off + bytes.length))

/-- `unlink`. -/
def unlink (d : Directory Name) (n : Name) : Directory Name where
  entries := d.entries.erase n
  content := d.content
  made := d.made
  known m i found := by
    by_cases same : m = n
    · rw [same, AList.lookup_erase] at found
      cases found
    · rw [AList.lookup_erase_ne same] at found
      exact d.known m i found
  alone a b i first second := by
    by_cases here : a = n
    · rw [here, AList.lookup_erase] at first
      cases first
    by_cases there : b = n
    · rw [there, AList.lookup_erase] at second
      cases second
    · rw [AList.lookup_erase_ne here] at first
      rw [AList.lookup_erase_ne there] at second
      exact d.alone a b i first second

/-! ### Names -/

@[simp] theorem find_empty : (empty : Directory Name).find n = none := rfl

@[simp] theorem find_put (bytes : Bytes) : (d.put i bytes).find n = d.find n := rfl

@[simp] theorem find_write (off : Nat) (bytes : Bytes) : (d.write i off bytes).find n = d.find n :=
  rfl

@[simp] theorem find_make_self : (d.make n).find n = some d.made := AList.lookup_insert _

@[simp] theorem find_make_of_ne (other : m ≠ n) : (d.make n).find m = d.find m :=
  AList.lookup_insert_ne other

@[simp] theorem find_unlink_self : (d.unlink n).find n = none := AList.lookup_erase _ _

@[simp] theorem find_unlink_of_ne (other : m ≠ n) : (d.unlink n).find m = d.find m :=
  AList.lookup_erase_ne other

theorem find_creat_self : (d.creat n).1.find n = some (d.creat n).2 := by
  rw [creat]
  cases found : d.find n with
  | some i => simp [found]
  | none => simp

theorem find_creat_of_ne (other : m ≠ n) : (d.creat n).1.find m = d.find m := by
  rw [creat]
  cases found : d.find n with
  | some i => simp
  | none => simp [other]

theorem find_ne (found : d.find n = some i) (other : m ≠ n) : d.find m ≠ some i := by
  intro same
  exact other (d.alone m n i same found)

/-! ### Contents -/

theorem text_eq_some {bytes : Bytes} :
    d.text n = some bytes ↔ ∃ i, d.find n = some i ∧ d.content i = bytes := by
  simp [text]

theorem text_of_find (found : d.find n = some i) : d.text n = some (d.content i) := by
  simp [text, found]

@[simp] theorem text_empty : (empty : Directory Name).text n = none := rfl

@[simp] theorem text_eq_none : d.text n = none ↔ d.find n = none := by simp [text]

@[simp] theorem content_put_self (bytes : Bytes) : (d.put i bytes).content i = bytes :=
  Function.update_self _ _ _

@[simp] theorem content_put_of_ne (bytes : Bytes) (other : j ≠ i) :
    (d.put i bytes).content j = d.content j :=
  Function.update_of_ne other _ _

@[simp] theorem content_make_self : (d.make n).content d.made = [] := Function.update_self _ _ _

@[simp] theorem content_make_of_ne (other : j ≠ d.made) : (d.make n).content j = d.content j :=
  Function.update_of_ne other _ _

theorem text_put_self {bytes : Bytes} (found : d.find n = some i) :
    (d.put i bytes).text n = some bytes := by
  simp [text, found]

/-- Another name has another file. -/
theorem text_put_of_ne {bytes : Bytes} (found : d.find n = some i) (other : m ≠ n) :
    (d.put i bytes).text m = d.text m := by
  cases there : d.find m with
  | none => simp [text, there]
  | some j =>
    have apart : j ≠ i := by
      intro same
      exact find_ne found other (same ▸ there)
    simp [text, there, apart]

/-- What is written behind a file is added to it. -/
theorem write_end {off : Nat} {bytes : Bytes} (ends : (d.content i).length = off) :
    d.write i off bytes = d.put i (d.content i ++ bytes) := by
  subst ends
  simp [write, List.takeD_eq_take, List.drop_eq_nil_of_le]

theorem text_creat_self : (d.creat n).1.text n = some [] := by
  rw [creat]
  cases found : d.find n with
  | some i => simp [text_put_self found]
  | none => simp [text]

theorem text_creat_of_ne (other : m ≠ n) : (d.creat n).1.text m = d.text m := by
  rw [creat]
  cases found : d.find n with
  | some i => simp [text_put_of_ne found other]
  | none =>
    cases there : d.find m with
    | none => simp [text, other, there]
    | some j =>
      have old := d.known m j there
      simp [text, other, there, old.ne]

theorem text_unlink_self : (d.unlink n).text n = none := by simp

theorem text_unlink_of_ne (other : m ≠ n) : (d.unlink n).text m = d.text m := by
  rw [text, find_unlink_of_ne other]
  rfl

/-! ### Other names -/

/-- Two directories have the same file for a name, with the same content. -/
def Agree (d d' : Directory Name) (n : Name) : Prop := d'.find n = d.find n ∧ d'.text n = d.text n

theorem agree_refl : Agree d d n := ⟨rfl, rfl⟩

theorem Agree.content {d' : Directory Name} (agree : Agree d d' n) (found : d.find n = some i) :
    d'.content i = d.content i := by
  have texts := agree.2
  rw [text_of_find found, text_of_find (agree.1.trans found), Option.some_inj] at texts
  exact texts

theorem agree_creat (other : m ≠ n) : Agree d (d.creat n).1 m :=
  ⟨find_creat_of_ne other, text_creat_of_ne other⟩

theorem agree_unlink (other : m ≠ n) : Agree d (d.unlink n) m :=
  ⟨find_unlink_of_ne other, text_unlink_of_ne other⟩

/-- Nothing changes but that a name is gone. -/
theorem agree_or_gone : Agree d (d.unlink n) m ∨ (d.unlink n).text m = none := by
  by_cases same : m = n
  · exact .inr (same ▸ text_unlink_self)
  · exact .inl (agree_unlink same)

theorem agree_write {off : Nat} {bytes : Bytes} (found : d.find n = some i) (other : m ≠ n) :
    Agree d (d.write i off bytes) m := ⟨rfl, text_put_of_ne found other⟩

end Directory
