import MyStudy.Lib.FileLogic

/-!
# Owners

Every address of the files has one owner: a process, a resource that is not locked, or nobody. What
one owns is a part of the heap of all there is, and an operation changes only the part of its
process.
-/

namespace FileProgram

open Separation

variable {File Pid Res : Type}

inductive Owner (Pid Res : Type) where
  | proc (p : Pid)
  | res (r : Res)
  | nobody
  deriving DecidableEq

abbrev Owners (File Pid Res : Type) := Addr File → Owner Pid Res

/-- Files without locks. -/
def noLocks (File : Type) : Protocol File Empty := ⟨nofun, nofun, nofun, nofun⟩

/-- The mode of a program that reads only. -/
def reading (File : Type) : Mode (noLocks File) := ⟨true, true, false, nofun, nofun⟩

variable [DecidableEq Pid] [DecidableEq Res]

/-- What an owner has. -/
def share (own : Owners File Pid Res) (files : Files File) (o : Owner Pid Res) : FileHeap File :=
  fun x =>
  if own x = o then heapOf files x else none

variable {own : Owners File Pid Res} {files : Files File} {o o' : Owner Pid Res}

theorem share_eq_some {x : Addr File} {c : Cell} :
    share own files o x = some c ↔ own x = o ∧ heapOf files x = some c := by
  rw [share]
  by_cases same : own x = o
  · simp [same]
  · simp [same]

theorem share_eq_none {x : Addr File} : share own files o x = none ↔ own x ≠ o := by
  rw [share]
  by_cases same : own x = o
  · cases x <;> simp [same, heapOf]
  · simp [same]

theorem share_disjoint (other : o ≠ o') :
    Heap.Disjoint (share own files o) (share own files o') := by
  intro x
  by_cases same : own x = o
  · right
    rw [share_eq_none, same]
    exact other
  · exact .inl (share_eq_none.mpr same)

theorem heapOf_byte {file : File} {i : Nat} {b : UInt8} :
    heapOf files (.byte file i) = some (.byte b) ↔ (files file)[i]? = some b := by
  rw [heapOf]
  cases (files file)[i]? <;> simp

theorem heapOf_size {file : File} {n : Nat} :
    heapOf files (.size file) = some (.size n) ↔ (files file).length = n := by
  simp [heapOf]

/-! ### Reading and writing -/

/-- Bytes that are owned are the bytes that are read. -/
theorem pread_share {file : File} {offset : Nat} {data : Bytes}
    (here : ∀ i, (inside : i < data.length) →
      share own files o (.byte file (offset + i)) = some (.byte data[i])) :
    ((files file).drop offset).take data.length = data := by
  apply List.ext_getElem?
  intro i
  by_cases inside : i < data.length
  · have cell := heapOf_byte.mp (share_eq_some.mp (here i inside)).2
    rw [List.getElem?_take_of_lt inside, List.getElem?_drop, cell, List.getElem?_eq_getElem inside]
  · rw [List.getElem?_eq_none (by rw [List.length_take]; omega), List.getElem?_eq_none (by omega)]

/-- The bytes from an offset on. -/
def Reads (files : Files File) (file : File) (offset : Nat) (data : Bytes) : Prop :=
  ((files file).drop offset).take data.length = data

theorem Reads.getElem? {file : File} {offset : Nat} {data : Bytes}
    (reads : Reads files file offset data) (i : Nat) (inside : i < data.length) :
    (files file)[offset + i]? = some data[i] := by
  have cell := congrArg (·[i]?) reads
  simp only [List.getElem?_take_of_lt inside, List.getElem?_drop, List.getElem?_eq_getElem inside]
    at cell
  exact cell

theorem Reads.append {file : File} {offset : Nat} {front back : Bytes} :
    Reads files file offset (front ++ back) ↔
      Reads files file offset front ∧ Reads files file (offset + front.length) back := by
  rw [Reads, Reads, Reads, List.length_append, List.take_add, List.drop_drop]
  constructor
  · intro both
    have length := congrArg List.length both
    simp only [List.length_append, List.length_take, List.length_drop] at length
    exact List.append_inj both (by rw [List.length_take, List.length_drop]; omega)
  · rintro ⟨first, second⟩
    rw [first, second]

section Contents

variable [DecidableEq File]

/-- Bytes that are owned can be read. -/
theorem Reads.of_share {file : File} {offset : Nat} {data : Bytes} {F : FileAssertion File}
    (owned : (bytes file offset data * F) (share own files o)) : Reads files file offset data := by
  obtain ⟨_, b, disjoint, whole, rfl, -⟩ := owned
  have here (i : Nat) (inside : i < data.length) :
      share own files o (.byte file (offset + i)) = some (.byte data[i]) := by
    rw [whole]
    refine Heap.union_left ?_
    rw [region_byte, List.getElem?_eq_getElem inside]
    rfl
  exact pread_share here

theorem Reads.within {file : File} {offset : Nat} {data : Bytes}
    (reads : Reads files file offset data) :
    Heap.Within (region file offset data) (heapOf files) := by
  intro x c found
  cases x with
  | size file' => cases found
  | byte file' i =>
    rw [region] at found
    split at found
    next here =>
      obtain ⟨rfl, behind⟩ := here
      obtain ⟨b, there, rfl⟩ := Option.map_eq_some_iff.mp found
      obtain ⟨inside, same⟩ := List.getElem?_eq_some_iff.mp there
      have cell := reads.getElem? (i - offset) inside
      rw [Nat.add_sub_cancel' behind, same] at cell
      exact heapOf_byte.mpr cell
    · cases found

theorem heapOf_overwrite_byte (files : Files File) (file : File) {offset : Nat} (data : Bytes)
    (within : offset ≤ (files file).length) (file' : File) (i : Nat) :
    heapOf (Function.update files file (overwrite (files file) offset data)) (.byte file' i) =
      writeHeap (heapOf files) file offset data (.byte file' i) := by
  rw [writeHeap]
  by_cases same : file' = file
  · subst same
    rw [heapOf, Function.update_self, getElem?_overwrite _ _ _ within]
    by_cases here : offset ≤ i ∧ i < offset + data.length
    · rw [if_pos here, if_pos ⟨rfl, here⟩, List.getElem?_eq_getElem (by omega)]
      rfl
    · rw [if_neg here, if_neg (by tauto), heapOf]
  · -- another file is not touched
    rw [if_neg (by tauto), heapOf, heapOf, Function.update_of_ne same]

theorem heapOf_overwrite (files : Files File) (file : File) (offset : Nat) (data : Bytes)
    (within : data ≠ [] → offset + data.length ≤ (files file).length) :
    heapOf (Function.update files file (overwrite (files file) offset data)) =
      writeHeap (heapOf files) file offset data := by
  by_cases nothing : data = []
  · -- nothing is written, wherever the offset is
    subst nothing
    rw [overwrite, if_pos rfl, Function.update_eq_self]
    funext x
    cases x with
    | size file' => rfl
    | byte file' i => rw [writeHeap, if_neg (by simp)]
  have inside := within nothing
  funext x
  cases x with
  | size file' =>
    rw [writeHeap, heapOf, heapOf]
    by_cases same : file' = file
    · subst same
      rw [Function.update_self, length_overwrite _ _ _ (by omega), max_eq_left inside]
    · rw [Function.update_of_ne same]
  | byte file' i => exact heapOf_overwrite_byte files file data (by omega) file' i

theorem heapOf_append (files : Files File) (file : File) (data : Bytes) :
    heapOf (Function.update files file (overwrite (files file) (files file).length data)) =
      appendHeap (heapOf files) file (files file).length data := by
  funext x
  cases x with
  | size file' =>
    rw [appendHeap, heapOf, heapOf]
    by_cases same : file' = file
    · subst same
      rw [if_pos rfl, Function.update_self, length_overwrite _ _ _ (Nat.le_refl _),
        max_eq_right (Nat.le_add_right _ _)]
    · rw [if_neg same, Function.update_of_ne same]
  | byte file' i => exact heapOf_overwrite_byte files file data (Nat.le_refl _) file' i

omit [DecidableEq File] in
/-- Files that differ only in what one owns look alike to the others. -/
theorem share_eq_of_owned {files' : Files File}
    (owned : ∀ x, own x ≠ o → heapOf files' x = heapOf files x) (other : o' ≠ o) :
    share own files' o' = share own files o' := by
  funext x
  rw [share, share]
  by_cases here : own x = o'
  · rw [if_pos here, if_pos here, owned x (here ▸ other)]
  · rw [if_neg here, if_neg here]

section Owned

variable {file : File} {offset : Nat} {data : Bytes}

omit [DecidableEq Pid] [DecidableEq Res] in
theorem writeHeap_eq_of_owned
    (owned : ∀ i, offset ≤ i ∧ i < offset + data.length → own (.byte file i) = o)
    (h : FileHeap File) {x : Addr File} (other : own x ≠ o) :
    writeHeap h file offset data x = h x := by
  cases x with
  | size file' => rfl
  | byte file' i =>
    rw [writeHeap, if_neg]
    rintro ⟨rfl, inside⟩
    exact other (owned i inside)

theorem share_writeHeap
    (owned : ∀ i, offset ≤ i ∧ i < offset + data.length → own (.byte file i) = o) (x : Addr File) :
    (if own x = o then writeHeap (heapOf files) file offset data x else none) =
      writeHeap (share own files o) file offset data x := by
  cases x with
  | size file' => rfl
  | byte file' i =>
    rw [writeHeap, writeHeap, share]
    by_cases inside : file' = file ∧ offset ≤ i ∧ i < offset + data.length
    · rw [if_pos inside, if_pos inside, if_pos (by rw [inside.1]; exact owned i inside.2)]
    · rw [if_neg inside, if_neg inside]

/-- Who overwrites what is his changes only that. -/
theorem share_overwrite
    (mine : ∀ i < data.length, ∃ b, share own files o (.byte file (offset + i)) = some (.byte b)) :
    share own (Function.update files file (overwrite (files file) offset data)) o' =
      if o' = o then writeHeap (share own files o) file offset data else share own files o' := by
  -- he has a byte at each place, so the file reaches that far
  have within (nonempty : data ≠ []) : offset + data.length ≤ (files file).length := by
    have pos := List.length_pos_of_ne_nil nonempty
    obtain ⟨b, here⟩ := mine (data.length - 1) (by omega)
    obtain ⟨there, _⟩ := List.getElem?_eq_some_iff.mp (heapOf_byte.mp (share_eq_some.mp here).2)
    omega
  have owned (i : Nat) (inside : offset ≤ i ∧ i < offset + data.length) :
      own (.byte file i) = o := by
    obtain ⟨b, here⟩ := mine (i - offset) (by omega)
    rw [Nat.add_sub_cancel' inside.1] at here
    exact (share_eq_some.mp here).1
  have written := heapOf_overwrite files file offset data within
  by_cases same : o' = o
  · rw [if_pos same, same]
    funext x
    rw [share, written, share_writeHeap owned]
  · rw [if_neg same]
    refine share_eq_of_owned (fun x other => ?_) same
    rw [written, writeHeap_eq_of_owned owned _ other]

/-- Who owns the end of a file appends to it. -/
theorem share_append {n : Nat} (size : share own files o (.size file) = some (.size n))
    (beyond : ∀ i, n ≤ i → share own files o (.byte file i) = some .beyond) :
    share own (Function.update files file (overwrite (files file) n data)) o' =
      if o' = o then appendHeap (share own files o) file n data else share own files o' := by
  have length := heapOf_size.mp (share_eq_some.mp size).2
  have sizeOwned := (share_eq_some.mp size).1
  have owned (i : Nat) (behind : n ≤ i ∧ i < n + data.length) : own (.byte file i) = o :=
    (share_eq_some.mp (beyond i behind.1)).1
  subst length
  have written := heapOf_append files file data
  by_cases same : o' = o
  · rw [if_pos same, same]
    funext x
    rw [share, written]
    cases x with
    | size file' =>
      rw [appendHeap, appendHeap, share]
      by_cases here : file' = file
      · rw [if_pos here, if_pos here, if_pos (by rw [here]; exact sizeOwned)]
      · rw [if_neg here, if_neg here]
    | byte file' i => exact share_writeHeap owned (.byte file' i)
  · rw [if_neg same]
    refine share_eq_of_owned (fun x other => ?_) same
    rw [written]
    cases x with
    | size file' =>
      -- the size is his, so that others see the old one
      rw [appendHeap, if_neg]
      rintro rfl
      exact other sizeOwned
    | byte file' i => exact writeHeap_eq_of_owned owned _ other

end Owned

end Contents

/-! ### Taking and giving -/

/-- All that a resource holds goes to a new owner. -/
def take (own : Owners File Pid Res) (r : Res) (o : Owner Pid Res) : Owners File Pid Res := fun x =>
  if own x = .res r then o else own x

theorem share_take_self (r : Res) (other : o ≠ .res r) : share (take own r o) files o =
    Heap.union (share own files (.res r)) (share own files o) := by
  funext x
  rw [Heap.union, share, share, share, take]
  by_cases held : own x = .res r
  · rw [if_pos held, if_pos rfl, if_pos held, if_neg (by rw [held]; exact Ne.symm other),
      Option.or_none]
  · rw [if_neg held, if_neg held, Option.none_or]

theorem share_take_other (r : Res) (other : o' ≠ o) (held : o' ≠ .res r) :
    share (take own r o) files o' = share own files o' := by
  funext x
  rw [share, share, take]
  by_cases here : own x = .res r
  · rw [if_pos here, if_neg (Ne.symm other), here, if_neg (Ne.symm held)]
  · rw [if_neg here]

/-- A part of what is owned goes to a resource. -/
def give (own : Owners File Pid Res) (r : Res) (a : FileHeap File) : Owners File Pid Res := fun x =>
  if a x = none then own x else .res r

theorem share_give {r : Res} {a b : FileHeap File} (disjoint : Heap.Disjoint a b)
    (parts : share own files o = Heap.union a b) (other : o ≠ .res r) (free : ∀ x, own x ≠ .res r) :
    share (give own r a) files (.res r) = a ∧ share (give own r a) files o = b ∧
      ∀ o', o' ≠ o → o' ≠ .res r → share (give own r a) files o' = share own files o' := by
  -- what is given was his
  have mine (x : Addr File) (some_ : a x ≠ none) : own x = o := by
    by_contra others
    have none_ : share own files o x = none := share_eq_none.mpr others
    rw [parts, Heap.union_eq_none] at none_
    exact some_ none_.1
  refine ⟨?_, ?_, ?_⟩
  · funext x
    have whole := congrFun parts x
    rw [Heap.union] at whole
    rw [share, give]
    by_cases none_ : a x = none
    · rw [if_pos none_, if_neg (free x), none_]
    · obtain ⟨c, found⟩ := Option.ne_none_iff_exists'.mp none_
      rw [if_neg none_, if_pos rfl]
      rw [share, if_pos (mine x none_), found, Option.some_or] at whole
      rw [whole, found]
  · funext x
    have whole := congrFun parts x
    rw [Heap.union] at whole
    rw [share, give]
    by_cases none_ : a x = none
    · rw [if_pos none_]
      rw [none_, Option.none_or] at whole
      exact whole
    · rw [if_neg none_, if_neg (Ne.symm other)]
      exact ((disjoint x).resolve_left none_).symm
  · intro o' others held
    funext x
    rw [share, share, give]
    by_cases none_ : a x = none
    · rw [if_pos none_]
    · rw [if_neg none_, if_neg (Ne.symm held), mine x none_, if_neg (Ne.symm others)]

/-- A process gives up what it has. -/
def drop (own : Owners File Pid Res) (p : Pid) : Owners File Pid Res := fun x =>
  if own x = .proc p then .nobody else own x

theorem drop_eq_res {p : Pid} {x : Addr File} {r : Res} :
    drop own p x = .res r ↔ own x = .res r := by
  rw [drop]
  by_cases mine : own x = .proc p
  · simp [mine]
  · rw [if_neg mine]

theorem share_drop_self (p : Pid) : share (drop own p) files (.proc p) = Heap.empty := by
  funext x
  refine share_eq_none.mpr ?_
  rw [drop]
  by_cases mine : own x = .proc p
  · simp [mine]
  · rwa [if_neg mine]

theorem share_drop_other {p : Pid} (other : o ≠ .proc p) (somebody : o ≠ .nobody) :
    share (drop own p) files o = share own files o := by
  funext x
  rw [share, share, drop]
  by_cases mine : own x = .proc p
  · rw [if_pos mine, if_neg (Ne.symm somebody), mine, if_neg (Ne.symm other)]
  · rw [if_neg mine]

/-! ### Runs of one process -/

variable {P : Protocol File Res} {m : Mode P}

/-- Each resource that is not locked holds contents that may be there. -/
def Kept (own : Owners File Pid Res) (files : Files File) (X : Know P) (L : List Res) : Prop :=
  ∀ r, if r ∈ L then ∀ x, own x ≠ .res r else ∃ x, X r x ∧ P.holds r x (share own files (.res r))

/-- What one does with his own heap leaves what the resources hold. -/
theorem Kept.other {X : Know P} {L : List Res} {files' : Files File} (kept : Kept own files X L)
    (same : ∀ r, share own files' (.res r) = share own files (.res r)) : Kept own files' X L := by
  intro r
  have here := kept r
  split at here
  next held => rwa [if_pos held]
  next free =>
    rw [if_neg free, same r]
    exact here

theorem Kept.lock {X : Know P} {L : List Res} {r : Res} {p : Pid} (kept : Kept own files X L) :
    Kept (take own r (.proc p)) files X (r :: L) := by
  intro r'
  by_cases same : r' = r
  · subst same
    rw [if_pos List.mem_cons_self]
    intro x
    rw [take]
    split
    · simp
    next other => exact other
  · have here := kept r'
    by_cases held : r' ∈ L
    · rw [if_pos (List.mem_cons_of_mem r held)]
      rw [if_pos held] at here
      intro x
      rw [take]
      split
      · simp
      · exact here x
    · rw [if_neg (by rw [List.mem_cons]; tauto), share_take_other r (by simp) (by simpa using same)]
      rwa [if_neg held] at here

theorem Kept.unlock {X : Know P} {L : List Res} {r : Res} {x : P.Content r} {a b : FileHeap File}
    {p : Pid} (kept : Kept own files X L) (alone : m.alone = true) (held : r ∈ L) (once : L.Nodup)
    (disjoint : Heap.Disjoint a b) (parts : share own files (.proc p) = Heap.union a b)
    (holds : P.holds r x a) : Kept (give own r a) files (m.learn X r x) (L.erase r) := by
  -- while he holds the resource nothing belongs to it
  have free : ∀ y, own y ≠ .res r := by
    have here := kept r
    rwa [if_pos held] at here
  obtain ⟨given, _, others⟩ := share_give disjoint parts (by simp) free
  intro r'
  rw [Mode.learn, if_pos alone]
  by_cases same : r' = r
  · subst same
    rw [if_neg (List.Nodup.not_mem_erase once), given, Function.update_self]
    exact ⟨x, rfl, holds⟩
  · rw [Function.update_of_ne same]
    have here := kept r'
    by_cases held' : r' ∈ L
    · rw [if_pos held'] at here
      rw [if_pos ((List.mem_erase_of_ne same).mpr held')]
      intro y
      rw [give]
      split
      · exact here y
      · simpa using Ne.symm same
    · rw [if_neg held'] at here
      rw [if_neg fun member => held' (List.mem_of_mem_erase member),
        others _ (by simp) (by simpa using same)]
      exact here

variable [DecidableEq File] {E α : Type}

section Answers

variable {X : Know P} {L : List Res} {Q : α → Know P → List Res → FileHeap File → Prop}

/-- What a process knows of a file that it reads is true. -/
theorem wp_size {file : File} {next : Nat → Prog File E α}
    (does : wp m (.op (.size file) next) X L (share own files o) Q) :
    wp m (next (files file).length) X L (share own files o) Q := by
  obtain ⟨n, known, does⟩ := does
  obtain rfl := heapOf_size.mp (share_eq_some.mp known).2
  exact does

theorem wp_pread {file : File} {offset len : Nat} {next : Bytes → Prog File E α}
    (does : wp m (.op (.pread file offset len) next) X L (share own files o) Q) :
    wp m (next (((files file).drop offset).take len)) X L (share own files o) Q := by
  obtain ⟨data, rfl, known, does⟩ := does
  rwa [pread_share known]

/-- One writes into his own share only. -/
theorem wp_pwrite {file : File} {offset : Nat} {data : Bytes} {next : Unit → Prog File E α}
    (does : wp m (.op (.pwrite file offset data) next) X L (share own files o) Q) :
    m.writes = true ∧
      wp m (next ()) X L
        (share own (Function.update files file (overwrite (files file) offset data)) o) Q ∧
      ∀ o', o' ≠ o → share own
      (Function.update files file (overwrite (files file) offset data)) o' =
        share own files o' := by
  obtain ⟨writes, ⟨known, does⟩ | ⟨⟨size, beyond⟩, does⟩⟩ := does
  · refine ⟨writes, by rwa [share_overwrite known, if_pos rfl], fun o' other => ?_⟩
    rw [share_overwrite known, if_neg other]
  · refine ⟨writes, by rwa [share_append size beyond, if_pos rfl], fun o' other => ?_⟩
    rw [share_append size beyond, if_neg other]

end Answers

/-- A process that is alone, with what it has locked and owns. -/
def Alone (p : Pid) (files : Files File) (X : Know P) (L : List Res) (A : FileAssertion File) :
    Prop :=
  L.Nodup ∧ ∃ own : Owners File Pid Res, Kept own files X L ∧ A (share own files (.proc p))

omit [DecidableEq Res] [DecidableEq File] in
theorem range_inj {r r' : Res} : P.range r = P.range r' ↔ r = r' := by
  constructor
  · intro same
    refine (P.separate r' r).mp ?_
    rw [same]
    exact (P.separate r' r').mpr rfl
  · rintro rfl
    rfl

theorem ranges_unlock {L : List Res} (once : L.Nodup) (r : Res) :
    (Op.unlock (P.range r)).ranges (L.map P.range) = (L.erase r).map P.range := by
  rw [Op.ranges, List.filter_map, once.erase_eq_filter]
  congr 1
  refine List.filter_congr fun r' _ => ?_
  by_cases same : r' = r
  · simp [same]
  · simp [same, range_inj]

/-- A process that is alone, and never stops, returns. If it does not write, it leaves the files as
they are. -/
theorem run_of_wp (alone : m.alone = true) (strict : m.strict = true) (p : Pid)
    (prog : Prog File E α) {Q : α → Know P → List Res → FileHeap File → Prop}
    (own : Owners File Pid Res) (files : Files File) (X : Know P) (L : List Res) (once : L.Nodup)
    (kept : Kept own files X L) (does : wp m prog X L (share own files (.proc p)) Q) :
    ∃ a files' X' L', prog.run files = (.ok a, files') ∧
      prog.unreleased files (L.map P.range) = L'.map P.range ∧ Alone p files' X' L' (Q a X' L') ∧
      (m.writes = false → files' = files) := by
  induction prog generalizing own files X L with
  | ret a => exact ⟨a, files, X, L, rfl, rfl, ⟨once, own, kept, does⟩, fun _ => rfl⟩
  | stop why =>
    rw [wp, strict] at does
    cases does
  | op o next ih =>
    cases o with
    | size file => exact ih _ own files X L once kept (wp_size does)
    | pread file offset len => exact ih _ own files X L once kept (wp_pread does)
    -- only a write changes the files
    | pwrite file offset data =>
      obtain ⟨writes, does, others⟩ := wp_pwrite does
      obtain ⟨a, files', X', L', runs, left, here, _⟩ := ih () own _ X L once
        (kept.other fun r => others _ (by simp)) does
      refine ⟨a, files', X', L', runs, left, here, fun reads => ?_⟩
      rw [writes] at reads
      cases reads
    | lock range kind =>
      obtain ⟨r, rfl, _, _, _, free, does⟩ := does
      -- the lock gives him what the resource keeps
      have here := kept r
      rw [if_neg free] at here
      obtain ⟨x, known, holds⟩ := here
      refine ih () (take own r (.proc p)) files X (r :: L) (List.nodup_cons.mpr ⟨free, once⟩)
        kept.lock ?_
      rw [share_take_self r (by simp)]
      exact does x known _ holds (share_disjoint (by simp))
    | unlock range =>
      obtain ⟨r, held, rfl, x, _, a, b, disjoint, parts, holds, _, does⟩ := does
      -- what the resource has to keep goes back to it
      have free : ∀ y, own y ≠ .res r := by
        have here := kept r
        rwa [if_pos held] at here
      obtain ⟨_, mine, _⟩ := share_give disjoint parts (by simp) free
      have later := ih () (give own r a) files _ _ (once.erase r)
        (kept.unlock alone held once disjoint parts holds) (by rwa [mine])
      rw [← ranges_unlock once r] at later
      exact later

theorem Alone.run {p : Pid} {X : Know P} {L : List Res} {A : FileAssertion File}
    {prog : Prog File E α} {Q : α → Know P → List Res → FileHeap File → Prop}
    (here : Alone p files X L A) (alone : m.alone = true) (strict : m.strict = true)
    (does : Triple m X L A prog Q) :
    ∃ a files' X' L', prog.run files = (.ok a, files') ∧
      prog.unreleased files (L.map P.range) = L'.map P.range ∧
      Alone p files' X' L' (Q a X' L') := by
  obtain ⟨once, own, kept, owned⟩ := here
  obtain ⟨a, files', X', L', runs, left, after, -⟩ :=
    run_of_wp alone strict p prog own files X L once kept
    (does _ owned)
  exact ⟨a, files', X', L', runs, left, after⟩

/-! ### Runs that only read -/

/-- A program that reads what is in the files returns, and leaves them as they are. -/
theorem Returns.run {prog : Prog File E α} {A B : FileAssertion File} {R : α → Prop}
    (does : Returns (reading File) A prog R B) (files : Files File) (h : FileHeap File)
    (within : Heap.Within h (heapOf files)) (here : A h) :
    ∃ a, prog.run files = (.ok a, files) ∧ R a := by
  obtain ⟨b, disjoint, whole⟩ := within.exists_rest
  let own : Owners File Unit Empty := fun _ => .proc ()
  have all : share own files (.proc ()) = heapOf files := funext fun _ => if_pos rfl
  obtain ⟨a, files', _, _, runs, -, ⟨-, _, -, returned, -⟩, same⟩ :=
    run_of_wp (m := reading File) rfl rfl () prog own files nofun [] List.nodup_nil nofun
      (by rw [all]; exact does nofun [] (.exactly b) _ ⟨h, b, disjoint, whole, here, rfl⟩)
  rw [same rfl] at runs
  exact ⟨a, runs, returned⟩

end FileProgram
