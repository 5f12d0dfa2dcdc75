import MyStudy.Lib.Heap
import MyStudy.Lib.FileProgram
import Mathlib.Data.Set.Basic

/-!
# A logic for programs on shared files

A process owns some bytes and some ends of files. Record locks stand for resources, each with
contents that describe what it owns: to lock one is to come to own it, and to unlock it is to give
it up. `wp` says what a program does from what its process owns, whatever others do with the rest.
-/

namespace FileProgram

open Separation

variable {File E α β : Type}

/-! ### What can be owned -/

inductive Addr (File : Type) where
  | byte (file : File) (i : Nat)
  | size (file : File)

/-- Behind its end a file has cells, too, so that they can be owned before they are written. -/
inductive Cell where
  | byte (b : UInt8)
  | beyond
  | size (n : Nat)
  deriving DecidableEq

abbrev FileHeap (File : Type) := Heap (Addr File) Cell

abbrev FileAssertion (File : Type) := Assertion (Addr File) Cell

/-- The heap of all there is. -/
def heapOf (files : Files File) : FileHeap File
  | .byte file i =>
    some (match (files file)[i]? with
      | some b => .byte b
      | none => .beyond)
  | .size file => some (.size (files file).length)

variable [DecidableEq File]

/-- The bytes from an offset on. -/
def region (file : File) (offset : Nat) (data : Bytes) : FileHeap File
  | .byte file' i => if file' = file ∧ offset ≤ i then data[i - offset]?.map Cell.byte else none
  | .size _ => none

/-- The end of a file of a length. -/
def endAt (file : File) (n : Nat) : FileHeap File
  | .byte file' i => if file' = file ∧ n ≤ i then some .beyond else none
  | .size file' => if file' = file then some (.size n) else none

def bytes (file : File) (offset : Nat) (data : Bytes) : FileAssertion File :=
  .exactly (region file offset data)

def fileEnd (file : File) (n : Nat) : FileAssertion File := .exactly (endAt file n)

theorem region_byte (file : File) (offset : Nat) (data : Bytes) (i : Nat) :
    region file offset data (.byte file (offset + i)) = data[i]?.map Cell.byte := by
  rw [region, if_pos ⟨rfl, Nat.le_add_right offset i⟩, Nat.add_sub_cancel_left]

theorem region_eq_none (file : File) (offset : Nat) (data : Bytes) (x : Addr File) :
    region file offset data x = none ↔ ∀ i < data.length, x ≠ .byte file (offset + i) := by
  cases x with
  | size file' => simp [region]
  | byte file' i =>
    rw [region]
    constructor
    · intro none_ j inside same
      obtain ⟨rfl, rfl⟩ := Addr.byte.inj same
      rw [if_pos ⟨rfl, by omega⟩, Nat.add_sub_cancel_left, Option.map_eq_none_iff,
        List.getElem?_eq_none_iff] at none_
      omega
    · intro outside
      split
      next here =>
        obtain ⟨rfl, behind⟩ := here
        rw [Option.map_eq_none_iff, List.getElem?_eq_none_iff]
        by_contra inside
        exact outside (i - offset) (by omega) (by congr 1; omega)
      · rfl

theorem region_append (file : File) (offset : Nat) (front back : Bytes) :
    Heap.Disjoint (region file offset front) (region file (offset + front.length) back) ∧
      region file offset (front ++ back) =
        Heap.union (region file offset front) (region file (offset + front.length) back) := by
  constructor
  · intro x
    by_cases left : region file offset front x = none
    · exact .inl left
    · right
      rw [region_eq_none] at left ⊢
      push Not at left
      obtain ⟨i, inside, rfl⟩ := left
      intro j _ same
      have := (Addr.byte.inj same).2
      omega
  · funext x
    cases x with
    | size file' => rfl
    | byte file' i =>
      rw [Heap.union, region, region, region]
      by_cases here : file' = file ∧ offset ≤ i
      · rw [if_pos here, if_pos here]
        by_cases inside : i - offset < front.length
        · rw [List.getElem?_append_left inside, List.getElem?_eq_getElem inside]
          rfl
        · have outside : front[i - offset]? = none := List.getElem?_eq_none (by omega)
          rw [List.getElem?_append_right (by omega), outside, Option.map_none, Option.none_or,
            if_pos ⟨here.1, by omega⟩, Nat.sub_sub]
      · -- before the front there is nothing of the back either
        have later : ¬ (file' = file ∧ offset + front.length ≤ i) := by
          rintro ⟨same, behind⟩
          exact here ⟨same, by omega⟩
        rw [if_neg here, if_neg here, if_neg later]
        rfl

theorem bytes_append (file : File) (offset : Nat) (front back : Bytes) :
    bytes file offset (front ++ back) =
      bytes file offset front * bytes file (offset + front.length) back := by
  obtain ⟨disjoint, same⟩ := region_append file offset front back
  rw [bytes, same]
  exact Assertion.exactly_union disjoint

theorem region_endAt (file : File) (n : Nat) (data : Bytes) :
    Heap.Disjoint (region file n data) (endAt file (n + data.length)) := by
  intro x
  by_cases left : region file n data x = none
  · exact .inl left
  · right
    rw [region_eq_none] at left
    push Not at left
    obtain ⟨i, inside, rfl⟩ := left
    rw [endAt, if_neg]
    omega

/-! ### Writing what is owned -/

/-- The heap with other bytes from an offset on. -/
def writeHeap (h : FileHeap File) (file : File) (offset : Nat) (data : Bytes) : FileHeap File
  | .byte file' i =>
    if file' = file ∧ offset ≤ i ∧ i < offset + data.length then data[i - offset]?.map Cell.byte
    else h (.byte file' i)
  | .size file' => h (.size file')

/-- The heap with bytes appended at the end of a file. -/
def appendHeap (h : FileHeap File) (file : File) (n : Nat) (data : Bytes) : FileHeap File
  | .byte file' i => writeHeap h file n data (.byte file' i)
  | .size file' => if file' = file then some (.size (n + data.length)) else h (.size file')

theorem writeHeap_region (file : File) (offset : Nat) (old data : Bytes) (rest : FileHeap File)
    (same : old.length = data.length) (disjoint : Heap.Disjoint (region file offset old) rest) :
    writeHeap (Heap.union (region file offset old) rest) file offset data =
        Heap.union (region file offset data) rest ∧
      Heap.Disjoint (region file offset data) rest := by
  constructor
  · funext x
    cases x with
    | size file' => rfl
    | byte file' i =>
      rw [writeHeap, Heap.union, Heap.union, region, region]
      by_cases inside : file' = file ∧ offset ≤ i ∧ i < offset + data.length
      · have within : i - offset < data.length := by omega
        rw [if_pos inside, if_pos ⟨inside.1, inside.2.1⟩, List.getElem?_eq_getElem within]
        rfl
      · rw [if_neg inside]
        by_cases here : file' = file ∧ offset ≤ i
        · -- behind the new bytes there are none of the old ones
          have outside : data.length ≤ i - offset := by
            by_contra within
            exact inside ⟨here.1, here.2, by omega⟩
          rw [if_pos here, if_pos here, List.getElem?_eq_none outside,
            List.getElem?_eq_none (by omega)]
        · rw [if_neg here, if_neg here]
  · intro x
    refine (disjoint x).imp_left fun outside => ?_
    rw [region_eq_none] at outside ⊢
    rwa [same] at outside

theorem endAt_disjoint_later {file : File} {n : Nat} {rest : FileHeap File}
    (disjoint : Heap.Disjoint (endAt file n) rest) (k : Nat) :
    Heap.Disjoint (endAt file (n + k)) rest := by
  intro x
  refine (disjoint x).imp_left fun outside => ?_
  cases x with
  | size file' =>
    rw [endAt] at outside ⊢
    split at outside
    · simp at outside
    next other => rw [if_neg other]
  | byte file' i =>
    rw [endAt] at outside ⊢
    split at outside
    · simp at outside
    next other =>
      rw [if_neg]
      rintro ⟨same, behind⟩
      exact other ⟨same, by omega⟩

theorem region_disjoint_of_endAt {file : File} {n : Nat} {rest : FileHeap File}
    (disjoint : Heap.Disjoint (endAt file n) rest) (data : Bytes) :
    Heap.Disjoint (region file n data) rest := by
  intro x
  by_cases left : region file n data x = none
  · exact .inl left
  · right
    rw [region_eq_none] at left
    push Not at left
    obtain ⟨i, inside, rfl⟩ := left
    refine (disjoint _).resolve_left ?_
    rw [endAt, if_pos ⟨rfl, by omega⟩]
    simp

theorem appendHeap_end (file : File) (n : Nat) (data : Bytes) (rest : FileHeap File)
    (disjoint : Heap.Disjoint (endAt file n) rest) :
    appendHeap (Heap.union (endAt file n) rest) file n data =
        Heap.union (region file n data) (Heap.union (endAt file (n + data.length)) rest) ∧
      Heap.Disjoint (region file n data) (Heap.union (endAt file (n + data.length)) rest) ∧
      Heap.Disjoint (endAt file (n + data.length)) rest := by
  have later := endAt_disjoint_later disjoint data.length
  have apart := region_disjoint_of_endAt disjoint data
  refine ⟨?_, Heap.disjoint_union.mpr ⟨region_endAt file n data, apart⟩, later⟩
  funext x
  cases x with
  | size file' =>
    rw [appendHeap, Heap.union, Heap.union, Heap.union, region, endAt, endAt]
    by_cases same : file' = file
    · rw [if_pos same, if_pos same]
      rfl
    · rw [if_neg same, if_neg same, if_neg same]
      rfl
  | byte file' i =>
    rw [appendHeap, writeHeap, Heap.union, Heap.union, Heap.union, region, endAt, endAt]
    by_cases inside : file' = file ∧ n ≤ i ∧ i < n + data.length
    · have within : i - n < data.length := by omega
      rw [if_pos inside, if_pos ⟨inside.1, inside.2.1⟩, List.getElem?_eq_getElem within]
      rfl
    · rw [if_neg inside]
      by_cases here : file' = file ∧ n ≤ i
      · -- behind the new bytes the file ends
        have outside : n + data.length ≤ i := by
          by_contra within
          exact inside ⟨here.1, here.2, by omega⟩
        rw [if_pos here, if_pos here, if_pos ⟨here.1, outside⟩, List.getElem?_eq_none (by omega)]
        rfl
      · -- before the end, and in other files, all is as it was
        have nor : ¬ (file' = file ∧ n + data.length ≤ i) := by
          rintro ⟨same, behind⟩
          exact here ⟨same, by omega⟩
        rw [if_neg here, if_neg here, if_neg nor]
        rfl

/-! ### What a program does -/

/-- What record locks stand for: for each resource its contents, what one owns with it, and the
range that is locked. No range reaches into the start of another. -/
structure Protocol (File Res : Type) where
  Content : Res → Type
  holds : (r : Res) → Content r → FileAssertion File
  range : Res → Range File
  separate : ∀ r r', (range r').Covers (range r).file (range r).start ↔ r' = r

variable {Res : Type} [DecidableEq Res] {P : Protocol File Res}

/-- Under which rules a program runs: whether nobody else changes the resources, whether it may
stop, whether it may write, the resources that it may lock, and what they may contain when it
unlocks them. -/
structure Mode (P : Protocol File Res) where
  alone : Bool
  strict : Bool
  writes : Bool
  lockable : Res → Prop
  allowed : (r : Res) → P.Content r → Prop

/-- What a process knows of the contents of the resources that it has not locked. -/
abbrev Know (P : Protocol File Res) := (r : Res) → P.Content r → Prop

/-- Only one that is alone knows what a resource contains after it has unlocked it. -/
def Mode.learn (m : Mode P) (X : Know P) (r : Res) (x : P.Content r) : Know P :=
  if m.alone then Function.update X r fun y => y = x else X

/-- Just these contents. -/
def Know.exactly (s : (r : Res) → P.Content r) : Know P := fun r x => x = s r

omit [DecidableEq File] in
theorem learn_exactly (m : Mode P) (alone : m.alone = true) (s : (r : Res) → P.Content r) (r : Res)
    (x : P.Content r) : m.learn (Know.exactly s) r x = Know.exactly (Function.update s r x) := by
  rw [Mode.learn, if_pos alone]
  funext r' y
  by_cases same : r' = r
  · subst same
    rw [Function.update_self, Know.exactly, Function.update_self]
  · rw [Function.update_of_ne same, Know.exactly, Know.exactly, Function.update_of_ne same]

/-- What a process may do next, its resources being locked and its heap owned: every value that it
returns satisfies `Q`. -/
def wp (m : Mode P) : Prog File E α → Know P → List Res → FileHeap File →
    (α → Know P → List Res → FileHeap File → Prop) → Prop
  | .ret a, X, L, h, Q => Q a X L h
  | .stop _, _, _, _, _ => m.strict = false
  | .op (.size file) next, X, L, h, Q =>
    ∃ n, h (.size file) = some (.size n) ∧ wp m (next n) X L h Q
  | .op (.pread file offset len) next, X, L, h, Q =>
    ∃ data : Bytes, data.length = len ∧
      (∀ i, (inside : i < data.length) → h (.byte file (offset + i)) = some (.byte data[i])) ∧
      wp m (next data) X L h Q
  | .op (.pwrite file offset data) next, X, L, h, Q =>
    m.writes = true ∧
      ((∀ i < data.length, ∃ b, h (.byte file (offset + i)) = some (.byte b)) ∧
          wp m (next ()) X L (writeHeap h file offset data) Q ∨
        (h (.size file) = some (.size offset) ∧ ∀ i, offset ≤ i → h (.byte file i) = some .beyond) ∧
          wp m (next ()) X L (appendHeap h file offset data) Q)
  | .op (.lock range kind) next, X, L, h, Q =>
    ∃ r, range = P.range r ∧ kind = .write ∧ m.writes = true ∧ m.lockable r ∧ r ∉ L ∧
      ∀ x, X r x → ∀ a, P.holds r x a → Heap.Disjoint a h →
        wp m (next ()) X (r :: L) (Heap.union a h) Q
  | .op (.unlock range) next, X, L, h, Q =>
    ∃ r ∈ L, range = P.range r ∧ ∃ x, m.allowed r x ∧ ∃ a b, Heap.Disjoint a b ∧
      h = Heap.union a b ∧
      P.holds r x a ∧ (m.lockable r ∨ b = Heap.empty) ∧
        wp m (next ()) (m.learn X r x) (L.erase r) b Q

variable (m : Mode P)

theorem wp_mono {p : Prog File E α} {X : Know P} {L : List Res} {h : FileHeap File}
    {Q Q' : α → Know P → List Res → FileHeap File → Prop} (does : wp m p X L h Q)
    (weaker : ∀ a X L h, Q a X L h → Q' a X L h) : wp m p X L h Q' := by
  induction p generalizing X L h with
  | ret a => exact weaker a X L h does
  | stop why => exact does
  | op o next ih =>
    cases o with
    | size file =>
      obtain ⟨n, known, does⟩ := does
      exact ⟨n, known, ih n does⟩
    | pread file offset len =>
      obtain ⟨data, len, known, does⟩ := does
      exact ⟨data, len, known, ih data does⟩
    | pwrite file offset data =>
      obtain ⟨writes, ⟨known, does⟩ | ⟨known, does⟩⟩ := does
      · exact ⟨writes, .inl ⟨known, ih () does⟩⟩
      · exact ⟨writes, .inr ⟨known, ih () does⟩⟩
    | lock range kind =>
      obtain ⟨r, same, exclusive, writes, lockable, free, does⟩ := does
      exact ⟨r, same, exclusive, writes, lockable, free, fun x known a held disjoint =>
        ih () (does x known a held disjoint)⟩
    | unlock range =>
      obtain ⟨r, held, same, x, allowed, a, b, disjoint, parts, given, whole, does⟩ := does
      exact ⟨r, held, same, x, allowed, a, b, disjoint, parts, given, whole, ih () does⟩

theorem wp_bind {p : Prog File E α} {f : α → Prog File E β} {X : Know P} {L : List Res}
    {h : FileHeap File} {Q : β → Know P → List Res → FileHeap File → Prop}
    (does : wp m p X L h fun a X L h => wp m (f a) X L h Q) : wp m (p.bind f) X L h Q := by
  induction p generalizing X L h with
  | ret a => exact does
  | stop why => exact does
  | op o next ih =>
    cases o with
    | size file =>
      obtain ⟨n, known, does⟩ := does
      exact ⟨n, known, ih n does⟩
    | pread file offset len =>
      obtain ⟨data, len, known, does⟩ := does
      exact ⟨data, len, known, ih data does⟩
    | pwrite file offset data =>
      obtain ⟨writes, ⟨known, does⟩ | ⟨known, does⟩⟩ := does
      · exact ⟨writes, .inl ⟨known, ih () does⟩⟩
      · exact ⟨writes, .inr ⟨known, ih () does⟩⟩
    | lock range kind =>
      obtain ⟨r, same, exclusive, writes, lockable, free, does⟩ := does
      exact ⟨r, same, exclusive, writes, lockable, free, fun x known a held disjoint =>
        ih () (does x known a held disjoint)⟩
    | unlock range =>
      obtain ⟨r, held, same, x, allowed, a, b, disjoint, parts, given, whole, does⟩ := does
      exact ⟨r, held, same, x, allowed, a, b, disjoint, parts, given, whole, ih () does⟩

/-! ### Rules -/

/-- From every heap that `A` describes. -/
def Triple (X : Know P) (L : List Res) (A : FileAssertion File) (p : Prog File E α)
    (Q : α → Know P → List Res → FileHeap File → Prop) : Prop :=
  ∀ h, A h → wp m p X L h Q

section Rules

variable {m} {X : Know P} {L : List Res} {A B F : FileAssertion File}

theorem Triple.ret {a : α} {Q : α → Know P → List Res → FileHeap File → Prop}
    (here : ∀ h, A h → Q a X L h) : Triple m X L A (.ret a : Prog File E α) Q := here

theorem Triple.stop {why : E} {Q : α → Know P → List Res → FileHeap File → Prop}
    (lax : m.strict = false) : Triple m X L A (.stop why : Prog File E α) Q := fun _ _ => lax

theorem Triple.bind {p : Prog File E α} {f : α → Prog File E β}
    {R : α → Know P → List Res → FileHeap File → Prop}
    {Q : β → Know P → List Res → FileHeap File → Prop} (first : Triple m X L A p R)
    (rest : ∀ a X L h, R a X L h → wp m (f a) X L h Q) : Triple m X L A (p.bind f) Q :=
  fun h here => wp_bind m (wp_mono m (first h here) rest)

theorem Triple.size {file : File} {n : Nat} {next : Nat → Prog File E α}
    {Q : α → Know P → List Res → FileHeap File → Prop}
    (rest : Triple m X L (fileEnd file n * F) (next n) Q) :
    Triple m X L (fileEnd file n * F) (.op (.size file) next) Q := by
  rintro h ⟨_, b, disjoint, rfl, rfl, frame⟩
  refine ⟨n, Heap.union_left (by rw [endAt, if_pos rfl]), rest _ ⟨_, b, disjoint, rfl, rfl, frame⟩⟩

theorem Triple.pread {file : File} {offset len : Nat} {data : Bytes} {next : Bytes → Prog File E α}
    {Q : α → Know P → List Res → FileHeap File → Prop} (whole : data.length = len)
    (rest : Triple m X L (bytes file offset data * F) (next data) Q) :
    Triple m X L (bytes file offset data * F) (.op (.pread file offset len) next) Q := by
  rintro h ⟨_, b, disjoint, rfl, rfl, frame⟩
  refine ⟨data, whole, fun i inside => ?_, rest _ ⟨_, b, disjoint, rfl, rfl, frame⟩⟩
  apply Heap.union_left
  rw [region_byte, List.getElem?_eq_getElem inside]
  rfl

theorem Triple.overwrite {file : File} {offset : Nat} {old data : Bytes}
    {next : Unit → Prog File E α} {Q : α → Know P → List Res → FileHeap File → Prop}
    (writes : m.writes = true) (same : old.length = data.length)
    (rest : Triple m X L (bytes file offset data * F) (next ()) Q) :
    Triple m X L (bytes file offset old * F) (.op (.pwrite file offset data) next) Q := by
  rintro h ⟨_, b, disjoint, rfl, rfl, frame⟩
  obtain ⟨written, apart⟩ := writeHeap_region file offset old data b same disjoint
  refine ⟨writes, .inl ⟨fun i inside => ?_, ?_⟩⟩
  · refine ⟨old[i], Heap.union_left ?_⟩
    rw [region_byte, List.getElem?_eq_getElem (by omega)]
    rfl
  · rw [written]
    exact rest _ ⟨_, b, apart, rfl, rfl, frame⟩

theorem Triple.append {file : File} {n : Nat} {data : Bytes} {next : Unit → Prog File E α}
    {Q : α → Know P → List Res → FileHeap File → Prop} (writes : m.writes = true)
    (rest : Triple m X L (bytes file n data * (fileEnd file (n + data.length) * F)) (next ()) Q) :
    Triple m X L (fileEnd file n * F) (.op (.pwrite file n data) next) Q := by
  rintro h ⟨_, b, disjoint, rfl, rfl, frame⟩
  obtain ⟨written, apart, later⟩ := appendHeap_end file n data b disjoint
  refine ⟨writes, .inr ⟨⟨Heap.union_left (by rw [endAt, if_pos rfl]), fun i behind => ?_⟩, ?_⟩⟩
  · exact Heap.union_left (by rw [endAt, if_pos ⟨rfl, behind⟩])
  · rw [written]
    exact rest _ ⟨_, _, apart, rfl, rfl, _, b, later, rfl, rfl, frame⟩

theorem Triple.lock {r : Res} {next : Unit → Prog File E α}
    {Q : α → Know P → List Res → FileHeap File → Prop} (writes : m.writes = true)
    (lockable : m.lockable r) (free : r ∉ L)
    (rest : ∀ x, X r x → Triple m X (r :: L) (P.holds r x * F) (next ()) Q) :
    Triple m X L F (.op (.lock (P.range r) .write) next) Q := by
  intro h frame
  exact ⟨r, rfl, rfl, writes, lockable, free, fun x known a held disjoint =>
    rest x known _ ⟨a, h, disjoint, rfl, held, frame⟩⟩

theorem Triple.unlock {r : Res} {x : P.Content r} {next : Unit → Prog File E α}
    {Q : α → Know P → List Res → FileHeap File → Prop} (lockable : m.lockable r) (held : r ∈ L)
    (allowed : m.allowed r x) (rest : Triple m (m.learn X r x) (L.erase r) F (next ()) Q) :
    Triple m X L (P.holds r x * F) (.op (.unlock (P.range r)) next) Q := by
  rintro h ⟨a, b, disjoint, rfl, given, frame⟩
  exact ⟨r, held, rfl, x, allowed, a, b, disjoint, rfl, given, .inl lockable, rest b frame⟩

/-- A resource that cannot be locked again is given up with all that is owned. -/
theorem Triple.unlock_last {r : Res} {x : P.Content r} {next : Unit → Prog File E α}
    {Q : α → Know P → List Res → FileHeap File → Prop} (held : r ∈ L) (allowed : m.allowed r x)
    (rest : Triple m (m.learn X r x) (L.erase r) 1 (next ()) Q) :
    Triple m X L (P.holds r x) (.op (.unlock (P.range r)) next) Q := by
  intro h given
  exact ⟨r, held, rfl, x, allowed, h, Heap.empty, Heap.disjoint_empty h,
    (Heap.union_empty h).symm, given,
    .inr rfl, rest _ rfl⟩

theorem Triple.rearrange {p : Prog File E α} {Q : α → Know P → List Res → FileHeap File → Prop}
    (same : A = B) (does : Triple m X L B p Q) : Triple m X L A p Q := same ▸ does

theorem Triple.mono {p : Prog File E α} {Q Q' : α → Know P → List Res → FileHeap File → Prop}
    (first : Triple m X L A p Q) (weaker : ∀ a X L h, Q a X L h → Q' a X L h) :
    Triple m X L A p Q' :=
  fun h here => wp_mono m (first h here) weaker

/-- What the program returns satisfies `R`; it knows and has locked the same as before, and turns
what `A` describes into what `B` does. -/
def Returns (m : Mode P) (A : FileAssertion File) (p : Prog File E α) (R : α → Prop)
    (B : FileAssertion File) : Prop :=
  ∀ (X : Know P) (L : List Res) (F : FileAssertion File),
    Triple m X L (A * F) p fun a X' L' h => R a ∧ X' = X ∧ L' = L ∧ (B * F) h

theorem Returns.next {p : Prog File E α} {R : α → Prop} {f : α → Prog File E β}
    {Q : β → Know P → List Res → FileHeap File → Prop} (first : Returns m A p R B)
    (rest : ∀ a, R a → Triple m X L (B * F) (f a) Q) : Triple m X L (A * F) (p.bind f) Q := by
  apply (first X L F).bind
  rintro a _ _ h ⟨returned, rfl, rfl, here⟩
  exact rest a returned h here

theorem Returns.stop {why : E} {R : α → Prop} (lax : m.strict = false) :
    Returns m A (.stop why : Prog File E α) R B := fun _ _ _ => Triple.stop lax

theorem Returns.mono {p : Prog File E α} {R R' : α → Prop} (first : Returns m A p R B)
    (weaker : ∀ a, R a → R' a) : Returns m A p R' B :=
  fun X L F => (first X L F).mono fun a _ _ _ ⟨returned, rest⟩ => ⟨weaker a returned, rest⟩

end Rules

end FileProgram
