import MyStudy.Lib.FreshNaming
import MyStudy.Zn.Misc

/-!
# Renaming the directories of archive names

`zn_untar_utils`: each directory component of an archive name is replaced by a configured prefix and
a number of its own. The counter is a C++ `int`, taken here as a natural number: it is the same as
long as fewer than 2^31 names are given.
-/
namespace Zn

structure DirectoryAllocator where
  count : Nat
  directoryMap : List (Bytes × Bytes)
  basename : Bytes
  deriving DecidableEq, Repr

namespace DirectoryAllocator

def init (basename : Bytes) : DirectoryAllocator := ⟨0, [], basename⟩

def getNewDirectoryName (da : DirectoryAllocator) (old : Bytes) : DirectoryAllocator × Bytes :=
  match da.directoryMap.lookup old with
  | some name => (da, name)
  | none =>
    -- `next` counts up and gives the new count
    let next := da.count + 1
    let newName := da.basename ++ decimal next
    ({ da with count := next, directoryMap := (old, newName) :: da.directoryMap }, newName)

/-- The allocator stands for a naming: same counter, and each number behind the prefix. -/
def Represents (prefix_ : Bytes) (n : FreshNaming Bytes) (da : DirectoryAllocator) : Prop :=
  da.basename = prefix_ ∧ da.count = n.count ∧
    ∀ old, da.directoryMap.lookup old = (n.index old).map fun i => prefix_ ++ decimal i

/-- A pair of old and new name agrees with a naming. -/
def Named (prefix_ : Bytes) (n : FreshNaming Bytes) (pair : Bytes × Bytes) : Prop :=
  ∃ i, n.index pair.1 = some i ∧ pair.2 = prefix_ ++ decimal i

theorem init_represents (prefix_ : Bytes) :
    Represents prefix_ FreshNaming.empty (init prefix_) := by
  simp [Represents, init, FreshNaming.empty]

theorem named_mono (prefix_ : Bytes) (n m : FreshNaming Bytes) (pair : Bytes × Bytes) (up : n ≤ m)
    (named : Named prefix_ n pair) : Named prefix_ m pair := by
  obtain ⟨i, known, name⟩ := named
  exact ⟨i, up _ _ known, name⟩

section Requests

variable {prefix_ : Bytes} {n : FreshNaming Bytes} {da : DirectoryAllocator}

theorem getNewDirectoryName_request (rep : Represents prefix_ n da) (old : Bytes) :
    Represents prefix_ (n.request old).1 (da.getNewDirectoryName old).1 ∧
      (da.getNewDirectoryName old).2 = prefix_ ++ decimal (n.request old).2 := by
  obtain ⟨base, count, names⟩ := rep
  cases known : n.index old with
  | some i =>
    -- a known name keeps its number, and nothing changes
    have found : da.directoryMap.lookup old = some (prefix_ ++ decimal i) := by
      rw [names, known]
      rfl
    simp only [getNewDirectoryName, found, n.request_known old i known]
    exact ⟨⟨base, count, names⟩, trivial⟩
  | none =>
    -- a new name takes the next number on both sides
    have missing : da.directoryMap.lookup old = none := by
      rw [names, known]
      rfl
    simp only [getNewDirectoryName, missing, n.request_new old known]
    refine ⟨⟨base, by rw [FreshNaming.extend_count, count], fun other => ?_⟩, by rw [base, count]⟩
    rw [FreshNaming.extend_index, List.lookup_cons]
    -- the map holds the new pair in front, and is the old one for every other name
    by_cases same : other = old
    · simp [same, base, count]
    · have apart : (other == old) = false := by simpa using same
      rw [apart, if_neg same, ← names]

/-- The loop of `_process_directory`: each component in turn asks for its new name. -/
def renameFolders (da : DirectoryAllocator) : List Bytes → DirectoryAllocator × List Bytes
  | [] => (da, [])
  | folder :: folders =>
    let first := da.getNewDirectoryName folder
    let rest := renameFolders first.1 folders
    (rest.1, first.2 :: rest.2)

theorem renameFolders_requests (rep : Represents prefix_ n da) (folders : List Bytes) :
    Represents prefix_ (n.requests folders).1 (da.renameFolders folders).1 ∧
      (da.renameFolders folders).2 = (n.requests folders).2.map fun i => prefix_ ++ decimal i := by
  induction folders generalizing n da with
  | nil => exact ⟨rep, rfl⟩
  | cons folder folders ih =>
    obtain ⟨first, name⟩ := getNewDirectoryName_request rep folder
    obtain ⟨last, names⟩ := ih first
    rw [renameFolders, FreshNaming.requests, List.map_cons]
    exact ⟨last, by rw [name, names]⟩

end Requests

/-- The loop moves the naming up and answers by it. -/
theorem renameFolders_spec (prefix_ : Bytes) (n : FreshNaming Bytes) (da : DirectoryAllocator)
    (rep : Represents prefix_ n da) (folders : List Bytes) :
    ∃ m, n ≤ m ∧ Represents prefix_ m (da.renameFolders folders).1 ∧
      List.Forall₂ (fun old new => Named prefix_ m (old, new)) folders
        (da.renameFolders folders).2 := by
  obtain ⟨next, names⟩ := renameFolders_requests rep folders
  obtain ⟨up, numbers⟩ := n.requests_spec folders
  refine ⟨_, up, next, ?_⟩
  rw [names, List.forall₂_map_right_iff]
  exact numbers.imp fun old i known => ⟨i, known, rfl⟩

end DirectoryAllocator

/-! ### `tar_filename_processor` -/

structure TarFilenameProcessor where
  da : DirectoryAllocator
  deriving DecidableEq, Repr

namespace TarFilenameProcessor

def init (directoryBasename : Bytes) : TarFilenameProcessor := ⟨.init directoryBasename⟩

/-- Every component but the last is renamed. `filename` holds a `/`, so `folders` is not empty. -/
def processDirectory (p : TarFilenameProcessor) (filename : Bytes) :
    TarFilenameProcessor × Bytes :=
  let folders := split filename slash
  let renamed := p.da.renameFolders folders.dropLast
  ({ p with da := renamed.1 }, join (renamed.2 ++ folders.getLast?.toList) slash)

/-- Drops the subject from a mail's file name, the part from `-` up to the extension. -/
def processFilename (filename : Bytes) : Bytes :=
  let dname := dirname filename
  let fname := basename filename
  let fname :=
    -- a mail with its subject in the name; one without keeps its name
    if (fname.head?.map isDigit).getD false then
      match fname.idxOf? '-'.toUInt8, fname.idxOf? '.'.toUInt8 with
      | some start, some stop =>
        if start < stop then fname.take start ++ fname.drop stop else fname
      | _, _ => fname
    else fname
  dname ++ slash :: fname

def process (p : TarFilenameProcessor) (filename : Bytes) : TarFilenameProcessor × Bytes :=
  p.processDirectory (processFilename filename)

/-- The directory components of a name that is processed. -/
def directories (filename : Bytes) : List Bytes :=
  (split (processFilename filename) slash).dropLast

end TarFilenameProcessor

example : (TarFilenameProcessor.init (ascii "D")).process (ascii "/../Inbox/12-subject.eml") =
    (⟨⟨3, [(ascii "Inbox", ascii "D3"), (ascii "..", ascii "D2"), (ascii "", ascii "D1")],
      ascii "D"⟩⟩, ascii "D1/D2/D3/12.eml") := by decide

end Zn
