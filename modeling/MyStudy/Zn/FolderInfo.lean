import MyStudy.Lib.ComparisonSort
import MyStudy.Lib.FailingFold
import MyStudy.Zn.Utf7Convert

/-!
# Folder lists

The folders of an account and the filters that decide which of them are migrated, under which
name, and in which order.
-/
namespace Zn

/-- The parameters of the configuration that the filters read. `uninit` is what a variable holds
that `from_string` leaves alone. -/
structure Config where
  folderDefaultId : Bytes
  folderCustomId : Int
  nsimBackupFolderId : Int
  nsimBackupFolderName : Bytes
  nsimMailStoreMax : Nat
  uninit : Int

structure FolderInfo where
  name : Bytes
  utf7name : Bytes
  id : Int
  deriving DecidableEq, Repr

/-- The exceptions that can leave the filters. -/
inductive FilterError where
  | folderInfo (what : String)
  | folderName (e : FolderNameError)
  deriving DecidableEq, Repr

variable (cfg : Config)

def defaultIdSet : List Int := (split cfg.folderDefaultId comma).map (fromStringInt cfg.uninit)

/-! ### `zn_folder_unnecessary_folder_remover` -/

/-- The folders that are not erased. -/
def keepsFolder (f : FolderInfo) : Bool := !(f.id < cfg.folderCustomId && f.id ∉ defaultIdSet cfg)

def unnecessaryFolderRemover (stdSort : ComparisonSort) (folders : List FolderInfo) :
    List FolderInfo :=
  stdSort.sort (fun a b => decide (a.id < b.id)) (folders.filter (keepsFolder cfg))

/-! ### `zn_folder_name_changer` -/

def changeName (name : Bytes) : Bytes :=
  let changed := if name = ascii "/Sent" then ascii "/Sent Messages" else name
  -- the second test is made on the name the first one has changed
  if changed.take 6 = ascii "/Sent/" then ascii "/Sent Messages/" ++ changed.drop 6 else changed

theorem changeName_ne_nil (name : Bytes) (some_ : name ≠ []) : changeName name ≠ [] := by
  rw [changeName]
  split
  · simp [ascii]
  · split
    · simp [ascii]
    · exact some_

def folderNameChanger (folders : List FolderInfo) : List FolderInfo :=
  folders.map fun f => { f with name := changeName f.name }

/-! ### `zn_folder_name_encoder` -/

def backupFolderName : Bytes := ascii "/" ++ cfg.nsimBackupFolderName

section Encoder

variable (iconv : Iconv)

/-- The name can be encoded. -/
def encodes (name : Bytes) : Bool := (convertFolderPath iconv name).isOk

def encodeFolder (f : FolderInfo) : Option FolderInfo :=
  (convertFolderPath iconv f.name).toOption.map fun utf7name => { f with utf7name := utf7name }

def givenUpIds (folders : List FolderInfo) : List Int :=
  (folders.filter fun f => !encodes iconv f.name).map (·.id)

/-- The backup folder goes to the end: a name cannot be encoded, and the last entry is no backup
folder already. -/
def addsBackup (folders : List FolderInfo) : Bool :=
  folders.any (fun f => !encodes iconv f.name) &&
    folders.getLast?.map (·.id) ≠ some cfg.nsimBackupFolderId

section Converted

variable {iconv}

theorem encodes_ok {name utf7name : Bytes}
    (converted : convertFolderPath iconv name = .ok utf7name) :
    encodes iconv name = true := by
  rw [encodes, converted]
  rfl

theorem encodes_error {name : Bytes} {e : FolderNameError}
    (converted : convertFolderPath iconv name = .error e) : encodes iconv name = false := by
  rw [encodes, converted]
  rfl

theorem encodeFolder_ok {f : FolderInfo} {utf7name : Bytes}
    (converted : convertFolderPath iconv f.name = .ok utf7name) :
    encodeFolder iconv f = some { f with utf7name := utf7name } := by
  rw [encodeFolder, converted]
  rfl

theorem encodeFolder_error {f : FolderInfo} {e : FolderNameError}
    (converted : convertFolderPath iconv f.name = .error e) : encodeFolder iconv f = none := by
  rw [encodeFolder, converted]
  rfl

theorem givenUpIds_append (front rest : List FolderInfo) :
    givenUpIds iconv (front ++ rest) = givenUpIds iconv front ++ givenUpIds iconv rest := by
  rw [givenUpIds, List.filter_append, List.map_append]
  rfl

theorem givenUpIds_ok {f : FolderInfo} {rest : List FolderInfo} {utf7name : Bytes}
    (converted : convertFolderPath iconv f.name = .ok utf7name) :
    givenUpIds iconv (f :: rest) = givenUpIds iconv rest := by
  simp [givenUpIds, encodes_ok converted]

theorem givenUpIds_error {f : FolderInfo} {rest : List FolderInfo} {e : FolderNameError}
    (converted : convertFolderPath iconv f.name = .error e) :
    givenUpIds iconv (f :: rest) = f.id :: givenUpIds iconv rest := by
  simp [givenUpIds, encodes_error converted]

theorem givenUpIds_of_encodes {folders : List FolderInfo}
    (fine : ∀ f ∈ folders, encodes iconv f.name = true) : givenUpIds iconv folders = [] := by
  rw [givenUpIds, List.filter_eq_nil_iff.mpr fun f member => by simp [fine f member]]
  rfl

end Converted

end Encoder

/-! ### `get_folder_info` -/

/-- `find_folder_info(id)`: -1 stands for a search by name, which is then empty. -/
def getFolderInfo (folders : List FolderInfo) (id : Int) : Except FilterError FolderInfo :=
  match folders.find? fun info => if id ≠ -1 then id = info.id else info.name = [] with
  | some info => .ok info
  | none => .error (.folderInfo "get folder info by id error.")

/-- The overload that searches by name; the text of its exception is the same. -/
def getFolderInfoByName (folders : List FolderInfo) (name : Bytes) :
    Except FilterError FolderInfo :=
  match folders.find? fun info => info.name = name with
  | some info => .ok info
  | none => .error (.folderInfo "get folder info by id error.")

theorem getFolderInfoByName_ok_iff (folders : List FolderInfo) (name : Bytes) :
    (∃ info, getFolderInfoByName folders name = .ok info) ↔ ∃ f ∈ folders, f.name = name := by
  rw [getFolderInfoByName]
  cases found : folders.find? fun info => info.name = name with
  | none => simpa using found
  | some info =>
    have member := List.mem_of_find?_eq_some found
    have same := List.find?_some found
    simp only [Except.ok.injEq, exists_eq', true_iff]
    exact ⟨info, member, by simpa using same⟩

theorem getFolderInfoByName_error (folders : List FolderInfo) (name : Bytes) (e : FilterError)
    (failed : getFolderInfoByName folders name = .error e) : ∃ what, e = .folderInfo what := by
  rw [getFolderInfoByName] at failed
  split at failed
  · simp at failed
  · exact ⟨_, (Except.error.inj failed).symm⟩

theorem getFolderInfo_error (folders : List FolderInfo) (id : Int) (e : FilterError)
    (failed : getFolderInfo folders id = .error e) : ∃ what, e = .folderInfo what := by
  rw [getFolderInfo] at failed
  split at failed
  · simp at failed
  · exact ⟨_, (Except.error.inj failed).symm⟩

/-- A search by any other id than -1 finds the first folder that has it. -/
theorem getFolderInfo_eq_find (folders : List FolderInfo) (id : Int) (proper : id ≠ -1) :
    getFolderInfo folders id =
      match folders.find? fun info => info.id = id with
      | some info => .ok info
      | none => .error (.folderInfo "get folder info by id error.") := by
  simp only [getFolderInfo, proper, ne_eq, not_false_eq_true, if_true, eq_comm]

theorem getFolderInfo_found (folders : List FolderInfo) (id : Int) (info : FolderInfo)
    (found : getFolderInfo folders id = .ok info) : info ∈ folders := by
  rw [getFolderInfo] at found
  split at found
  next first =>
    rw [← Except.ok.inj found]
    exact List.mem_of_find?_eq_some first
  · simp at found

theorem getFolderInfo_mem (folders : List FolderInfo) (id : Int) (proper : id ≠ -1)
    (info : FolderInfo) (found : getFolderInfo folders id = .ok info) :
    info ∈ folders ∧ info.id = id := by
  refine ⟨getFolderInfo_found folders id info found, ?_⟩
  rw [getFolderInfo_eq_find folders id proper] at found
  cases first : folders.find? fun info => info.id = id with
  | none => rw [first] at found; simp at found
  | some g =>
    rw [first] at found
    rw [← Except.ok.inj found]
    simpa using List.find?_some first

theorem exists_getFolderInfo (folders : List FolderInfo) (id : Int) (proper : id ≠ -1)
    (info : FolderInfo) (member : info ∈ folders) (same : info.id = id) :
    ∃ f ∈ folders, f.id = id ∧ getFolderInfo folders id = .ok f := by
  rw [getFolderInfo_eq_find folders id proper]
  cases first : folders.find? fun info => info.id = id with
  | none =>
    have absent := List.find?_eq_none.mp first info member
    simp [same] at absent
  | some f =>
    exact ⟨f, List.mem_of_find?_eq_some first, by simpa using List.find?_some first, rfl⟩

/-! ### `zn_folder_priority_sorter` -/

/-- A `std::map<int, int>` that counts: its pairs in the order of their keys. -/
abbrev MailCounter := List (Int × Int)

/-- The sum of two `int`s. One that does not fit wraps around, as the machine has it. -/
def addInt (a b : Int) : Int := Int.bmod (a + b) (2 ^ 32)

namespace MailCounter

def keys (counter : MailCounter) : List Int := counter.map Prod.fst

/-- What `counter[key]` reads: 0 for a key that is not there. -/
def mails (counter : MailCounter) (key : Int) : Int := (counter.lookup key).getD 0

/-- `counter[key] = n`. -/
def put (key n : Int) : MailCounter → MailCounter
  | [] => [(key, n)]
  | (k, m) :: rest =>
    -- the keys stand in order, so a new one goes before the first larger one
    if key < k then (key, n) :: (k, m) :: rest
    else if key = k then (key, n) :: rest
    else (k, m) :: put key n rest

/-- `counter[key] += n`. -/
def add (key n : Int) (counter : MailCounter) : MailCounter :=
  counter.put key (addInt (counter.mails key) n)

/-- `counter.count(key)`. -/
def count (counter : MailCounter) (key : Int) : Nat := if key ∈ counter.keys then 1 else 0

theorem mem_keys_put (key k n : Int) (counter : MailCounter) :
    k ∈ keys (put key n counter) ↔ k = key ∨ k ∈ keys counter := by
  induction counter with
  | nil => simp [put, keys]
  | cons pair rest ih =>
    rw [put]
    split
    · simp [keys]
    · split
      next same => simp [keys, same]
      · simp only [keys, List.map_cons, List.mem_cons] at ih ⊢
        rw [ih]
        exact or_left_comm

theorem mem_keys_add (key k n : Int) (counter : MailCounter) :
    k ∈ keys (add key n counter) ↔ k = key ∨ k ∈ keys counter := mem_keys_put key k _ counter

/-- `counter.insert(begin, end)`: keys that are there keep their number. -/
def insertAll (counter : MailCounter) (others : MailCounter) : MailCounter :=
  others.foldl (fun c pair => if pair.1 ∈ c.keys then c else c.put pair.1 pair.2) counter

theorem mem_keys_insertAll (counter others : MailCounter) (k : Int) (member : k ∈ counter.keys) :
    k ∈ (counter.insertAll others).keys := by
  induction others generalizing counter with
  | nil => exact member
  | cons pair others ih =>
    rw [insertAll, List.foldl_cons]
    -- one more key, and none less
    apply ih
    split
    · exact member
    · exact (mem_keys_put _ _ _ _).mpr (Or.inr member)

end MailCounter

/-- The directories above a path, until `dirname` gives the empty one. `dirname` takes at least a
slash off, so as many rounds as bytes are enough for a path that starts with one. -/
def parentDirs : Nat → Bytes → List Bytes
  | 0, _ => []
  | rounds + 1, name =>
    if dirname name = [] then [] else dirname name :: parentDirs rounds (dirname name)

/-- The directory of a path that starts with a slash is empty or starts with one, and is shorter. -/
theorem dirname_absolute (name : Bytes) (absolute : name.head? = some slash) :
    (dirname name).length < name.length ∧
      (dirname name ≠ [] → (dirname name).head? = some slash) := by
  obtain ⟨front, back, rfl, absent⟩ := exists_last slash name (List.mem_of_head? absolute)
  rw [dirname_append front back absent]
  refine ⟨by simp, fun some_ => ?_⟩
  obtain ⟨c, rest, rfl⟩ := List.exists_cons_of_ne_nil some_
  simpa using absolute

/-- The walk up from such a path ends by itself: more rounds find no other directory. -/
theorem parentDirs_enough (rounds : Nat) (name : Bytes) (absolute : name.head? = some slash)
    (enough : name.length ≤ rounds) :
    parentDirs rounds name = parentDirs name.length name := by
  induction len : name.length using Nat.strongRecOn generalizing name rounds with
  | ind l ih =>
    -- each directory is shorter than its path and starts with a slash, too
    obtain ⟨shorter, still⟩ := dirname_absolute name absolute
    obtain ⟨rounds, rfl⟩ := Nat.exists_eq_add_one.mpr (Nat.lt_of_lt_of_le (by omega) enough)
    obtain ⟨l, rfl⟩ :=
      Nat.exists_eq_add_one.mpr (Nat.lt_of_le_of_lt (Nat.zero_le _) (len ▸ shorter))
    rw [parentDirs, parentDirs]
    split
    · rfl
    next some_ =>
      rw [ih (dirname name).length (by omega) rounds (dirname name) (still some_) (by omega) rfl,
        ih (dirname name).length (by omega) l (dirname name) (still some_) (by omega) rfl]

/-- The inner loop of `_fill_parent_folder_mail_counter`: a directory above a folder with mail. -/
def fillParent (folders : List FolderInfo) (mails : Int) (parents : MailCounter) (dir : Bytes) :
    Except FilterError MailCounter :=
  (getFolderInfoByName folders dir).map fun parent => parents.add parent.id mails

/-- The outer loop: a folder with mail. -/
def fillParents (folders : List FolderInfo) (parents : MailCounter) (pair : Int × Int) :
    Except FilterError MailCounter :=
  match getFolderInfo folders pair.1 with
  | .ok info =>
    (parentDirs info.name.length info.name).foldlM (fillParent folders pair.2) parents
  | .error e => .error e

def fillParentFolderMailCounter (folders : List FolderInfo) (counter : MailCounter) :
    Except FilterError MailCounter :=
  (counter.foldlM (fillParents folders) []).map counter.insertAll

/-- A lookup by id succeeds, and so do those of all the directories above the folder. -/
def ParentsFound (folders : List FolderInfo) (id : Int) : Prop :=
  ∃ info, getFolderInfo folders id = .ok info ∧
    ∀ dir ∈ parentDirs info.name.length info.name, ∃ f ∈ folders, f.name = dir

theorem fillParent_ok_iff (folders : List FolderInfo) (mails : Int) (parents : MailCounter)
    (dir : Bytes) :
    (∃ parents', fillParent folders mails parents dir = .ok parents') ↔
      ∃ f ∈ folders, f.name = dir := by
  rw [← getFolderInfoByName_ok_iff, fillParent]
  cases getFolderInfoByName folders dir <;> simp [Except.map]

theorem fillParents_ok_iff (folders : List FolderInfo) (parents : MailCounter) (pair : Int × Int) :
    (∃ parents', fillParents folders parents pair = .ok parents') ↔
      ParentsFound folders pair.1 := by
  rw [fillParents, ParentsFound]
  cases getFolderInfo folders pair.1 with
  | error e => simp
  | ok info =>
    simp only [Except.ok.injEq, exists_eq_left']
    -- the walk up fails only where a directory is not in the list
    exact FailingFold.foldlM_succeeds_iff _ _ (fillParent_ok_iff folders pair.2) _ parents

theorem fillParentFolderMailCounter_ok_iff (folders : List FolderInfo) (counter : MailCounter) :
    (∃ c, fillParentFolderMailCounter folders counter = .ok c) ↔
      ∀ key ∈ counter.keys, ParentsFound folders key := by
  rw [MailCounter.keys, List.forall_mem_map,
    ← FailingFold.foldlM_succeeds_iff _ _ (fillParents_ok_iff folders) counter [],
    fillParentFolderMailCounter]
  cases counter.foldlM (fillParents folders) [] <;> simp [Except.map]

theorem fillParents_error (folders : List FolderInfo) (parents : MailCounter) (pair : Int × Int)
    (e : FilterError) (failed : fillParents folders parents pair = .error e) :
    ∃ what, e = .folderInfo what := by
  rw [fillParents] at failed
  cases found : getFolderInfo folders pair.1 with
  | error e' =>
    rw [found] at failed
    exact Except.error.inj failed ▸ getFolderInfo_error folders pair.1 e' found
  | ok info =>
    rw [found] at failed
    refine FailingFold.foldlM_error _ (fun e => ∃ what, e = .folderInfo what) ?_ _ parents e failed
    intro b dir e' failed'
    rw [fillParent] at failed'
    cases named : getFolderInfoByName folders dir with
    | error e'' =>
      rw [named] at failed'
      exact Except.error.inj failed' ▸ getFolderInfoByName_error folders dir e'' named
    | ok parent => rw [named] at failed'; simp [Except.map] at failed'

/-- The only exception is that of a lookup. -/
theorem fillParentFolderMailCounter_error (folders : List FolderInfo) (counter : MailCounter)
    (e : FilterError) (failed : fillParentFolderMailCounter folders counter = .error e) :
    ∃ what, e = .folderInfo what := by
  rw [fillParentFolderMailCounter] at failed
  cases parents : counter.foldlM (fillParents folders) [] with
  | error e' =>
    rw [parents] at failed
    exact Except.error.inj failed ▸ FailingFold.foldlM_error _
      (fun e => ∃ what, e = .folderInfo what) (fillParents_error folders) counter [] e' parents
  | ok c => rw [parents] at failed; simp [Except.map] at failed

theorem fillParentFolderMailCounter_keys (folders : List FolderInfo) (counter c : MailCounter)
    (done : fillParentFolderMailCounter folders counter = .ok c) (key : Int)
    (member : key ∈ counter.keys) : key ∈ c.keys := by
  rw [fillParentFolderMailCounter] at done
  cases parents : counter.foldlM (fillParents folders) [] with
  | error e => rw [parents] at done; simp [Except.map] at done
  | ok others =>
    rw [parents] at done
    exact Except.ok.inj done ▸ MailCounter.mem_keys_insertAll counter others key member

def folderLevel (name : Bytes) : Nat := name.count slash

/-- `folder_info_priority_cmp`, which is no strict weak order. -/
def folderPriorityCmp (counter : MailCounter) (a b : FolderInfo) : Bool :=
  -- the order as the comments of the source give it: mail, level, id
  let mailExist := counter.count a.id > counter.count b.id
  let level := folderLevel a.name < folderLevel b.name
  let idAscending := a.id < b.id
  a.id ≠ cfg.nsimBackupFolderId && (mailExist || level || idAscending)

def removeEmptyDefaultFolder (counter : MailCounter) (folders : List FolderInfo) :
    List FolderInfo :=
  folders.filter fun f => !(f.id ∈ defaultIdSet cfg && counter.count f.id = 0)

def folderPrioritySorter (stdSort : ComparisonSort) (counter : MailCounter)
    (folders : List FolderInfo) : Except FilterError (List FolderInfo) :=
  (fillParentFolderMailCounter folders counter).map fun counter =>
    removeEmptyDefaultFolder cfg counter (stdSort.sort (folderPriorityCmp cfg counter) folders)

theorem folderPrioritySorter_ok_iff (stdSort : ComparisonSort) (counter : MailCounter)
    (folders : List FolderInfo) :
    (∃ folders', folderPrioritySorter cfg stdSort counter folders = .ok folders') ↔
      ∀ key ∈ counter.keys, ParentsFound folders key := by
  rw [← fillParentFolderMailCounter_ok_iff, folderPrioritySorter]
  cases fillParentFolderMailCounter folders counter <;> simp [Except.map]

theorem folderPrioritySorter_error (stdSort : ComparisonSort) (counter : MailCounter)
    (folders : List FolderInfo) (e : FilterError)
    (failed : folderPrioritySorter cfg stdSort counter folders = .error e) :
    ∃ what, e = .folderInfo what := by
  rw [folderPrioritySorter] at failed
  cases filled : fillParentFolderMailCounter folders counter with
  | error e' =>
    rw [filled] at failed
    exact Except.error.inj failed ▸ fillParentFolderMailCounter_error folders counter e' filled
  | ok c => rw [filled] at failed; simp [Except.map] at failed

/-- Sorting and dropping empty default folders makes no new folder and keeps those with mail. -/
theorem folderPrioritySorter_mem (stdSort : ComparisonSort) (counter : MailCounter)
    (folders folders' : List FolderInfo)
    (done : folderPrioritySorter cfg stdSort counter folders = .ok folders') (f : FolderInfo) :
    (f ∈ folders' → f ∈ folders) ∧ (f ∈ folders → f.id ∈ counter.keys → f ∈ folders') := by
  rw [folderPrioritySorter] at done
  cases filled : fillParentFolderMailCounter folders counter with
  | error e => rw [filled] at done; simp [Except.map] at done
  | ok c =>
    simp only [filled, Except.map, Except.ok.injEq] at done
    rw [← done, removeEmptyDefaultFolder, List.mem_filter, stdSort.mem_sort]
    -- a folder with mail is counted, and so never empty
    refine ⟨fun both => both.1, fun member counted => ⟨member, ?_⟩⟩
    have key := fillParentFolderMailCounter_keys folders counter c filled f.id counted
    simp [MailCounter.count, key]

end Zn
