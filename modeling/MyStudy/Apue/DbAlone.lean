import MyStudy.Apue.DbLayout
import MyStudy.Lib.FileOwners

/-!
# One process alone

A process that has the database for itself: a call finds the contents that the one before has left,
and every call returns what it would return on a map.
-/
namespace Apue

open FileProgram Separation

/-! ### Files and contents -/

/-- The files hold these contents, each part its own bytes. -/
def Holds (files : Files DbFile) (s : Contents) : Prop :=
  ∃ own : Owners DbFile Unit Part, ∀ part : Part, part.holds (s part) (share own files (.res part))

/-- A process takes a part. -/
theorem Holds.lock {files : Files DbFile} {s : Contents} (holds : Holds files s) (part : Part) :
    Alone () files (Know.exactly (P := parts) s) [part] (part.holds (s part)) := by
  obtain ⟨own, here⟩ := holds
  -- what it has had before is nobody's
  have parts_ (part : Part) : part.holds (s part) (share (drop own ()) files (.res part)) := by
    rw [share_drop_other (by simp) (by simp)]
    exact here part
  have kept : Kept (drop own ()) files (Know.exactly (P := parts) s) [] := by
    intro part
    rw [if_neg List.not_mem_nil]
    exact ⟨s part, rfl, parts_ part⟩
  refine ⟨List.nodup_singleton part, take (drop own ()) part (.proc ()), kept.lock, ?_⟩
  rw [share_take_self part (by simp), share_drop_self, Heap.union_empty]
  exact parts_ part

theorem Holds.of_alone {files : Files DbFile} {s : Contents} {A : FileAssertion DbFile}
    (alone : Alone () files (Know.exactly (P := parts) s) [] A) : Holds files s := by
  obtain ⟨-, own, kept, -⟩ := alone
  refine ⟨own, fun part => ?_⟩
  have here := kept part
  rw [if_neg List.not_mem_nil] at here
  obtain ⟨x, rfl, holds⟩ := here
  exact holds

/-- The mode of a process that is alone. -/
def aloneMode (c : Call) : Mode parts :=
  ⟨true, true, decide (c.kind = .write), (· ≠ c.chain), fun _ _ => True⟩

theorem aloneMode_serving (c : Call) (writes : c.kind = .write) : Serving (aloneMode c) :=
  ⟨decide_eq_true writes, fun _ other => other _, fun _ _ _ _ => trivial⟩

theorem call_run (c : Call) (s : Contents) (files : Files DbFile) (db : DB) (valid : c.Valid)
    (fine : s.Fine) (fits : c.Fits s) (holds : Holds files s) :
    ∃ db' files', (c.run db).run files = (.ok (c.reply (s (.chain (bucket c.key))), db'), files') ∧
      (c.run db).unreleased files [] = [] ∧ Holds files' (c.effect s) := by
  have begins : Begins (aloneMode c) c (s (.chain (bucket c.key))) (Know.exactly s) :=
    ⟨rfl, fun part x same => same ▸ fine part, fun _ _ _ _ => trivial, fun _ => ⟨s, rfl, fits⟩⟩
  obtain ⟨next, steps, does⟩ := call_body c _ (Know.exactly s) db valid (aloneMode_serving c) begins
  obtain ⟨p, files', X', L', runs, left, after⟩ :=
    (holds.lock c.chain).run (m := aloneMode c) rfl rfl does
  obtain ⟨-, -, -, reply, rfl, learnt⟩ := id after
  rw [learnt rfl s rfl] at after
  refine ⟨p.2, files', ?_, ?_, .of_alone after⟩
  · rw [steps]
    change (next ()).run files = _
    rw [runs, ← reply]
  · rw [steps]
    exact left

/-! ### Sequences of calls -/

def runCalls : List Call → DbM (List Reply)
  | [] => pure []
  | c :: cs => do
    let reply ← c.run
    let replies ← runCalls cs
    pure (reply :: replies)

/-- What calls make of the contents. -/
def Contents.after : List Call → Contents → Contents
  | [], s => s
  | c :: cs, s => Contents.after cs (c.effect s)

/-- Each call finds room for the record that it may append. -/
def Room : List Call → Contents → Prop
  | [], _ => True
  | c :: cs, s => c.Roomy s ∧ Room cs (c.effect s)

instance decidableRoom : ∀ calls s, Decidable (Room calls s)
  | [], _ => inferInstanceAs (Decidable True)
  | c :: cs, s =>
    have := decidableRoom cs (c.effect s)
    inferInstanceAs (Decidable (c.Roomy s ∧ Room cs (c.effect s)))

theorem Contents.Sane.after {calls : List Call} {s : Contents} (sane : s.Sane)
    (proper : ∀ c ∈ calls, c.Proper) (room : Room calls s) :
    (Contents.after calls s).Sane ∧ (Contents.after calls s).map = mapAfter calls s.map := by
  induction calls generalizing s with
  | nil => exact ⟨sane, rfl⟩
  | cons c calls ih =>
    obtain ⟨here, later⟩ := List.forall_mem_cons.mp proper
    rw [mapAfter, ← map_effect c s sane.fine]
    exact ih (sane.effect here room.1) later room.2

theorem runCalls_run (calls : List Call) (s : Contents) (files : Files DbFile) (db : DB)
    (sane : s.Sane) (proper : ∀ c ∈ calls, c.Proper) (room : Room calls s) (holds : Holds files s) :
    ∃ db' files', (runCalls calls db).run files = (.ok (repliesOnMap calls s.map, db'), files') ∧
      Holds files' (Contents.after calls s) := by
  induction calls generalizing s files db with
  | nil => exact ⟨db, files, rfl, holds⟩
  | cons c calls ih =>
    obtain ⟨here, later⟩ := List.forall_mem_cons.mp proper
    obtain ⟨db1, files1, runs1, -, holds1⟩ := call_run c s files db here.valid sane.fine
      (sane.fits here room.1) holds
    obtain ⟨db2, files2, runs2, holds2⟩ :=
      ih (c.effect s) files1 db1 (sane.effect here room.1) later room.2
      holds1
    refine ⟨db2, files2, ?_, holds2⟩
    rw [runCalls, bind_apply, Prog.run_bind, runs1]
    simp only [bind_apply, Prog.run_bind, runs2, pure_apply]
    rw [map_effect c s sane.fine, reply_map]
    rfl

/-! ### A fresh database -/

def Contents.empty : Contents
  | .chain _ => []
  | .free => []
  | .idxEnd => recordsOff
  | .datEnd => 0

theorem Contents.empty_sane : Contents.empty.Sane := by
  refine ⟨fun part => ?_, fun b r member => ?_, [], ?_, rfl, rfl⟩
  · cases part with
    | chain b => exact ⟨by simp [Contents.empty], by simp [Contents.empty]⟩
    | free => exact fun r member => absurd member List.not_mem_nil
    | idxEnd => exact Nat.le_refl _
    | datEnd => trivial
  · exact absurd member List.not_mem_nil
  · exact (records_nil (fun _ => rfl) rfl).symm

theorem Contents.empty_map : Contents.empty.map = fun _ => none := rfl

/-- The pointers of all lists, and a newline. -/
def hashTable : Bytes := (List.replicate (nhashDef + 1) (formatWidth ptrSz 0)).flatten ++ [newline]

def emptyFiles : Files DbFile := fun _ => []

def freshFiles : Files DbFile
  | .idx => hashTable
  | .dat => []

theorem getElem?_flatten_replicate (n : Nat) (l : Bytes) (i : Nat) (inside : i < n * l.length) :
    (List.replicate n l).flatten[i]? = l[i % l.length]? := by
  induction n generalizing i with
  | zero => omega
  | succ n ih =>
    rw [List.replicate_succ, List.flatten_cons]
    rw [Nat.succ_mul] at inside
    by_cases first : i < l.length
    · rw [List.getElem?_append_left first, Nat.mod_eq_of_lt first]
    · rw [List.getElem?_append_right (by omega), ih (i - l.length) (by omega),
        ← Nat.mod_eq_sub_mod (by omega)]

theorem length_zero_ptr : (formatWidth ptrSz 0).length = ptrSz := length_ptr 0 (Nat.zero_le _)

theorem length_hashTable : hashTable.length = recordsOff := by
  rw [hashTable, List.length_append, List.length_flatten, List.map_replicate, List.sum_replicate,
    length_zero_ptr, nsmul_eq_mul, Nat.cast_id, recordsOff, List.length_singleton]

/-- The pointers of the table, one behind the other. -/
theorem getElem?_hashTable (i : Nat) (inside : i < (nhashDef + 1) * ptrSz) :
    hashTable[i]? = (formatWidth ptrSz 0)[i % ptrSz]? := by
  have len : ((List.replicate (nhashDef + 1) (formatWidth ptrSz 0)).flatten).length =
      (nhashDef + 1) * ptrSz := by
    rw [List.length_flatten, List.map_replicate, List.sum_replicate, length_zero_ptr, nsmul_eq_mul,
      Nat.cast_id]
  rw [hashTable, List.getElem?_append_left (by omega),
    getElem?_flatten_replicate _ _ _ (by rw [length_zero_ptr]; exact inside), length_zero_ptr]

/-- Whose pointer a byte of the table belongs to. -/
def tableOwner (i : Nat) : Owner Unit Part :=
  if i < ptrSz then .res .free
  else if inside : i / ptrSz - 1 < nhashDef then .res (.chain ⟨i / ptrSz - 1, inside⟩)
  else .nobody

/-- The parts of a fresh database. -/
def freshOwners : Owners DbFile Unit Part
  | .size .idx => .res .idxEnd
  | .size .dat => .res .datEnd
  | .byte .dat _ => .res .datEnd
  | .byte .idx i => if recordsOff ≤ i then .res .idxEnd else tableOwner i

theorem tableOwner_free (i : Nat) : tableOwner i = .res .free ↔ i < ptrSz := by
  rw [tableOwner]
  split
  next here => simpa using here
  next other => split <;> simpa using other

theorem tableOwner_chain (b : Fin nhashDef) (i : Nat) :
    tableOwner i = .res (.chain b) ↔ chainOff b ≤ i ∧ i < chainOff b + ptrSz := by
  have := b.isLt
  rw [chainOff, hashOff, tableOwner]
  split
  next here =>
    simp only [ptrSz] at here ⊢
    simp only [Owner.res.injEq, reduceCtorEq, false_iff]
    omega
  next other =>
    split
    next inside =>
      rw [Owner.res.injEq, Part.chain.injEq, Fin.ext_iff]
      simp only [ptrSz] at other ⊢
      omega
    next outside =>
      simp only [ptrSz] at other outside ⊢
      simp only [reduceCtorEq, false_iff]
      omega

theorem tableOwner_end (i : Nat) : tableOwner i ≠ .res .idxEnd ∧ tableOwner i ≠ .res .datEnd := by
  rw [tableOwner]
  split
  · simp
  · split <;> simp

theorem freshOwners_byte (i : Nat) :
    freshOwners (.byte .idx i) = if recordsOff ≤ i then .res .idxEnd else tableOwner i := rfl

/-- A pointer of the table. -/
theorem fresh_ptr {o : Owner Unit Part} (offset : Nat) (aligned : offset % ptrSz = 0)
    (inside : offset + ptrSz ≤ (nhashDef + 1) * ptrSz)
    (mine : ∀ i, tableOwner i = o ↔ offset ≤ i ∧ i < offset + ptrSz)
    (only : o ≠ .res .idxEnd ∧ o ≠ .res .datEnd) :
    share freshOwners freshFiles o = region .idx offset (formatWidth ptrSz 0) := by
  have len := length_zero_ptr
  -- what is behind the table is owned by the end of the file
  have owned (i : Nat) : freshOwners (.byte .idx i) = o ↔ offset ≤ i ∧ i < offset + ptrSz := by
    rw [freshOwners_byte]
    by_cases behind : recordsOff ≤ i
    · rw [if_pos behind]
      refine iff_of_false (Ne.symm only.1) fun here => ?_
      rw [recordsOff] at behind
      omega
    · rw [if_neg behind]
      exact mine i
  funext x
  rw [share]
  cases x with
  | size file => cases file <;> simp [freshOwners, region, only.1.symm, only.2.symm]
  | byte file i =>
    cases file with
    | dat => simp [freshOwners, region, only.2.symm]
    | idx =>
      by_cases here : offset ≤ i ∧ i < offset + ptrSz
      · have rest : i % ptrSz = i - offset := by
          simp only [ptrSz] at aligned here ⊢
          omega
        -- every pointer of the table is the same text
        have cell : (freshFiles .idx)[i]? = (formatWidth ptrSz 0)[i - offset]? := by
          change hashTable[i]? = _
          rw [getElem?_hashTable i (by omega), rest]
        rw [if_pos ((owned i).mpr here), heapOf, region, if_pos ⟨rfl, here.1⟩, cell,
          List.getElem?_eq_getElem (by omega)]
        rfl
      · rw [if_neg fun own => here ((owned i).mp own), region]
        by_cases behind : offset ≤ i
        · rw [if_pos ⟨rfl, behind⟩, List.getElem?_eq_none (by omega)]
          rfl
        · rw [if_neg fun both => behind both.2]

/-- The end of a file. -/
theorem fresh_end {o : Owner Unit Part} (file : DbFile) (n : Nat)
    (length : (freshFiles file).length = n)
    (size : ∀ file', freshOwners (.size file') = o ↔ file' = file)
    (byte : ∀ file' i, freshOwners (.byte file' i) = o ↔ file' = file ∧ n ≤ i) :
    share freshOwners freshFiles o = endAt file n := by
  funext x
  rw [share]
  cases x with
  | size file' =>
    rw [endAt, heapOf]
    by_cases same : file' = file
    · rw [if_pos ((size file').mpr same), if_pos same, same, length]
    · rw [if_neg fun own => same ((size file').mp own), if_neg same]
  | byte file' i =>
    rw [endAt, heapOf]
    by_cases here : file' = file ∧ n ≤ i
    · rw [if_pos ((byte file' i).mpr here), if_pos here, here.1, List.getElem?_eq_none (by omega)]
    · rw [if_neg fun own => here ((byte file' i).mp own), if_neg here]

theorem freshFiles_holds : Holds freshFiles Contents.empty := by
  refine ⟨freshOwners, fun part => ?_⟩
  cases part with
  | chain b =>
    have := b.isLt
    simp only [nhashDef] at this
    -- an empty chain is but its pointer
    change (listAt (chainOff b) []) _
    rw [listAt, chainAt, mul_one]
    refine fresh_ptr (chainOff b) ?_ ?_ (tableOwner_chain b) (by simp)
    · simp only [chainOff, hashOff, ptrSz]
      omega
    · simp only [chainOff, hashOff, ptrSz, nhashDef]
      omega
  | free =>
    change (listAt freeOff []) _
    rw [listAt, chainAt, mul_one]
    refine fresh_ptr freeOff rfl (by decide) (fun i => ?_) (by simp)
    rw [tableOwner_free, freeOff]
    simp
  | idxEnd =>
    refine fresh_end .idx recordsOff length_hashTable (fun file => ?_) fun file i => ?_
    · cases file <;> simp [freshOwners]
    · cases file with
      | dat => simp [freshOwners]
      | idx =>
        rw [freshOwners_byte]
        split
        next behind => simpa using behind
        next before => simpa [(tableOwner_end i).1] using before
  | datEnd =>
    refine fresh_end .dat 0 rfl (fun file => ?_) fun file i => ?_
    · cases file <;> simp [freshOwners]
    · cases file with
      | dat => simp [freshOwners]
      | idx =>
        rw [freshOwners_byte]
        split
        · simp
        · simp [(tableOwner_end i).2]

/-- `db_open` makes a fresh database of empty files. -/
theorem dbOpen_run : ∃ db, (dbOpen DB.alloc).run emptyFiles = (.ok (⟨⟩, db), freshFiles) := by
  have written : Function.update emptyFiles .idx (overwrite (emptyFiles .idx) 0 hashTable) =
      freshFiles := by
    funext file
    cases file with
    | idx =>
      rw [Function.update_self, overwrite, if_neg (by simp [hashTable])]
      simp [emptyFiles, freshFiles]
    | dat => rfl
  have steps : ∃ db, (dbOpen DB.alloc).run emptyFiles = (.ok (⟨⟩, db),
      Function.update emptyFiles .idx (overwrite (emptyFiles .idx) 0 hashTable)) := ⟨_, rfl⟩
  rwa [written] at steps

/-- A process that makes a database and calls the library. -/
def session (calls : List Call) : DbM (List Reply) := do
  dbOpen
  runCalls calls

theorem session_run (calls : List Call) (proper : ∀ c ∈ calls, c.Proper)
    (room : Room calls Contents.empty) :
    ∃ db files, (session calls DB.alloc).run emptyFiles =
      (.ok (repliesOnMap calls fun _ => none, db), files) := by
  obtain ⟨db0, opens⟩ := dbOpen_run
  obtain ⟨db, files, runs, _⟩ :=
    runCalls_run calls Contents.empty freshFiles db0 Contents.empty_sane proper
    room freshFiles_holds
  refine ⟨db, files, ?_⟩
  rw [session, bind_apply, Prog.run_bind, opens]
  exact runs

/-- A record that moves, is deleted, and gives its place to another key. -/
theorem session_run_reused :
    let calls : List Call := [.store [107, 49] [97] .insert, .store [107, 49] [97, 98] .replace,
      .fetch [107, 49], .store [107, 49] [99] .insert, .delete [107, 49],
      .store [107, 50] [99, 100] .store,
      .delete [107, 49], .fetch [107, 50]]
    (∃ db files, (session calls DB.alloc).run emptyFiles =
        (.ok (repliesOnMap calls fun _ => none, db), files)) ∧
      repliesOnMap calls (fun _ => none) =
        [.code 0, .code 0, .data (some [97, 98]), .code 1, .code 0,
        .code 0, .code (-1), .data (some [99, 100])] :=
  ⟨session_run _ (by decide) (by decide), by decide⟩

end Apue
