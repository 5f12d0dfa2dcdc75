import MyStudy.Zn.Untar

/-!
# Names the Zimbra stream writes under

Over a whole run of `zn_zimbra_untar_stream` every name given to `on_write` is one that the
processor has made of a name in the archive. Its directory part consists of names made up by the
allocator, and the renaming is a function and injective. The invariant is that the allocator stands
for a `FreshNaming` that only grows, and that the name is a processed one while content is awaited.
-/
namespace Zn

/-- Every component of a name but the last is the prefix with a positive number. -/
def Contained (prefix_ name : Bytes) : Prop :=
  ∀ dir ∈ (name.splitOn slash).dropLast, ∃ k, 0 < k ∧ dir = prefix_ ++ decimal k

theorem numbered_clean (prefix_ : Bytes) (plain : slash ∉ prefix_) (k : Nat) :
    slash ∉ prefix_ ++ decimal k := by
  rw [List.mem_append, not_or]
  refine ⟨plain, fun member => ?_⟩
  -- a slash is no digit
  have digit := mem_decimal k slash member
  revert digit
  decide

/-- A name that ends in a digit is no relative path step. -/
theorem numbered_ne (prefix_ : Bytes) (k : Nat) :
    prefix_ ++ decimal k ≠ [] ∧ prefix_ ++ decimal k ≠ ascii ".." := by
  refine ⟨by simp [decimal_ne_nil], fun same => ?_⟩
  obtain ⟨d, member⟩ := List.exists_mem_of_ne_nil _ (decimal_ne_nil k)
  have dot : d ∈ ascii ".." := same ▸ List.mem_append_right prefix_ member
  have noDigits : ∀ x ∈ ascii "..", isDigit x = false := by decide +kernel
  exact Bool.false_ne_true ((noDigits d dot).symm.trans (mem_decimal k d member))

namespace TarFilenameProcessor

open DirectoryAllocator

variable {prefix_ : Bytes}

private theorem named_numbered (n : FreshNaming Bytes) (olds news : List Bytes)
    (named : List.Forall₂ (fun old new => Named prefix_ n (old, new)) olds news) :
    ∀ new ∈ news, ∃ k, 0 < k ∧ new = prefix_ ++ decimal k := by
  induction named with
  | nil => simp
  | cons first _ ih =>
    rintro new (_ | ⟨_, member⟩)
    · obtain ⟨i, known, name⟩ := first
      exact ⟨i, (n.bounded _ i known).1, name⟩
    · exact ih new member

private theorem zip_named (n : FreshNaming Bytes) (olds news : List Bytes)
    (named : List.Forall₂ (fun old new => Named prefix_ n (old, new)) olds news) :
    ∀ pair ∈ olds.zip news, Named prefix_ n pair := by
  induction named with
  | nil => simp
  | cons first _ ih =>
    rw [List.zip_cons_cons]
    rintro pair (_ | ⟨_, member⟩)
    · exact first
    · exact ih pair member

/-- The directories of a processed name, each with the one that stands in its place. -/
def renamings (filename name : Bytes) : List (Bytes × Bytes) :=
  (directories filename).zip (name.splitOn slash).dropLast

/-- A name that was made of another one: each of its directories is the new name of the one that
stood in its place. -/
structure NamedFor (prefix_ : Bytes) (n : FreshNaming Bytes) (filename name : Bytes) : Prop where
  length : (name.splitOn slash).dropLast.length = (directories filename).length
  contained : Contained prefix_ name
  named : ∀ pair ∈ renamings filename name, Named prefix_ n pair

theorem NamedFor.mono {n m : FreshNaming Bytes} {filename name : Bytes} (up : n ≤ m)
    (named : NamedFor prefix_ n filename name) : NamedFor prefix_ m filename name :=
  ⟨named.length, named.contained,
    fun pair member => named_mono prefix_ n m pair up (named.named pair member)⟩

/-- Processing a name moves the naming up and leaves a name by it. -/
theorem process_spec (plain : slash ∉ prefix_) (n : FreshNaming Bytes) (p : TarFilenameProcessor)
    (rep : Represents prefix_ n p.da) (filename : Bytes) :
    ∃ m, n ≤ m ∧ Represents prefix_ m (p.process filename).1.da ∧
      NamedFor prefix_ m filename (p.process filename).2 := by
  obtain ⟨m, up, next, named⟩ := renameFolders_spec prefix_ n p.da rep (directories filename)
  have numbered := named_numbered m _ _ named
  refine ⟨m, up, next, ?_⟩
  -- the new name is joined from clean components, so cutting it again gives these back
  have cut : ((p.process filename).2.splitOn slash).dropLast =
      (p.da.renameFolders (directories filename)).2 := by
    simp only [process, processDirectory, join]
    -- the last component keeps its name; it is absent only from an empty path
    cases last : (split (processFilename filename) slash).getLast? with
    | none =>
      have empty : split (processFilename filename) slash = [] := List.getLast?_eq_none_iff.mp last
      simp [directories, empty, renameFolders]
    | some base =>
      have among : base ∈ split (processFilename filename) slash := List.mem_of_getLast? last
      rw [Option.toList_some, List.splitOn_intercalate slash ?clean (by simp), List.dropLast_concat]
      · rfl
      case clean =>
        intro piece inside
        rcases List.mem_append.mp inside with made | same
        · obtain ⟨k, _, rfl⟩ := numbered piece made
          exact numbered_clean prefix_ plain k
        · rw [List.mem_singleton.mp same]
          exact mem_split_clean _ base slash among
  refine ⟨?_, ?_, ?_⟩
  · rw [cut, named.length_eq]
  · rw [Contained, cut]
    exact numbered
  · rw [renamings, cut]
    exact zip_named m _ _ named

end TarFilenameProcessor

namespace ZimbraUntarStream

open UntarStream DirectoryAllocator

/-- The name that is processed while a block is taken, with the one that the stream has then. -/
def processed (s : ZimbraUntarStream) (block : Bytes) : List (Bytes × Bytes) :=
  match s.status with
  | .header | .longnameHeader =>
    if (TarHeader.magic block).head? = some 0 ∧ allZero block then []
    else
      let base := UntarStream.setTarInfo s block
      if base.2 then [(base.1.tarInfo.name, (setTarInfo s block).1.tarInfo.name)] else []
  | .content | .longname => []

theorem setTarInfo_base (s : ZimbraUntarStream) (header : Bytes) :
    (UntarStream.setTarInfo s header).1.derived = s.derived ∧
    ((UntarStream.setTarInfo s header).2 = false →
      (UntarStream.setTarInfo s header).1.status = s.status) := by
  simp only [UntarStream.setTarInfo]
  split
  · simp
  · split
    · simp
    · split <;> simp

/-! ### Where the names come from -/

/-- While content is awaited the name is one that was processed. -/
def NameSeen (seen : List (Bytes × Bytes)) (s : ZimbraUntarStream) : Prop :=
  s.status = .content → ∃ p ∈ seen, s.tarInfo.name = p.2

theorem feedBlock_nameSeen (seen : List (Bytes × Bytes)) (s : ZimbraUntarStream) (block : Bytes)
    (known : NameSeen seen s) :
    NameSeen (seen ++ processed s block) (feedBlock setTarInfo s block).1 ∧
      ∀ call ∈ (feedBlock setTarInfo s block).2, ∃ p ∈ seen ++ processed s block,
        call.info.name = p.2 := by
  cases status : s.status with
  | header | longnameHeader =>
    simp only [feedBlock, processed, status]
    split
    -- an end mark does not change the status
    · refine ⟨fun now => ?_, by simp⟩
      simp at now
    · refine ⟨fun now => ?_, by simp⟩
      cases ret : (UntarStream.setTarInfo s block).2 with
      | false =>
        -- nor does a refused header
        simp [setTarInfo, ret, (setTarInfo_base s block).2 ret, status] at now
      | true =>
        rw [if_pos rfl]
        exact ⟨_, List.mem_append_right _ (List.mem_singleton_self _), rfl⟩
  | content =>
    obtain ⟨p, member, name⟩ := known status
    simp only [feedBlock, processed, status, List.append_nil]
    split
    · refine ⟨fun _ => ⟨p, member, name⟩, fun call inside => ⟨p, member, ?_⟩⟩
      rw [List.mem_singleton.mp inside]
      exact name
    · refine ⟨fun now => ?_, fun call inside => ⟨p, member, ?_⟩⟩
      · simp at now
      · rw [List.mem_singleton.mp inside]
        exact name
  | longname =>
    simp only [feedBlock, processed, status, List.append_nil]
    split
    · refine ⟨fun now => ?_, by simp⟩
      simp at now
    · refine ⟨fun now => ?_, by simp⟩
      simp at now

/-! ### The naming -/

variable {prefix_ : Bytes}

/-- One block moves the naming up, and the name it processes is left by it. -/
theorem feedBlock_named (plain : slash ∉ prefix_) (n : FreshNaming Bytes) (s : ZimbraUntarStream)
    (block : Bytes) (rep : Represents prefix_ n s.derived.da) :
    ∃ m, n ≤ m ∧ Represents prefix_ m (feedBlock setTarInfo s block).1.derived.da ∧
      ∀ p ∈ processed s block, TarFilenameProcessor.NamedFor prefix_ m p.1 p.2 := by
  cases status : s.status with
  | header | longnameHeader =>
    simp only [feedBlock, processed, status]
    split
    · exact ⟨n, le_refl n, rep, by simp⟩
    · have same := (setTarInfo_base s block).1
      cases ret : (UntarStream.setTarInfo s block).2 with
      -- a refused header asks for no name
      | false =>
        refine ⟨n, le_refl n, ?_, by simp⟩
        simp only [setTarInfo, ret, Bool.false_eq_true, if_false, same]
        exact rep
      | true =>
        rw [← same] at rep
        obtain ⟨m, up, next, named⟩ :=
          TarFilenameProcessor.process_spec plain n _ rep
            (UntarStream.setTarInfo s block).1.tarInfo.name
        refine ⟨m, up, ?_, ?_⟩
        · simp only [setTarInfo, ret, if_true]
          exact next
        · simp only [setTarInfo, ret, if_true, List.mem_singleton]
          rintro p rfl
          exact named
  | content =>
    simp only [feedBlock, processed, status]
    split <;> exact ⟨n, le_refl n, rep, by simp⟩
  -- a long name is collected, and only processed with the header of its file
  | longname =>
    simp only [feedBlock, processed, status]
    split <;> exact ⟨n, le_refl n, rep, by simp⟩

/-! ### Runs -/

/-- The names that are processed in a run, whatever pieces it is fed in, and what they become. -/
def processedAll (folderRenamePrefix : Bytes) (pieces : List Bytes) : List (Bytes × Bytes) :=
  (((machine setTarInfo).observe processed).feedAll (init folderRenamePrefix, []) pieces).2

/-- All directory renamings of a run. -/
def renamingsAll (folderRenamePrefix : Bytes) (pieces : List Bytes) : List (Bytes × Bytes) :=
  (processedAll folderRenamePrefix pieces).flatMap fun p => TarFilenameProcessor.renamings p.1 p.2

/-- How many names the allocator has given in a run. -/
def namesGiven (folderRenamePrefix : Bytes) (pieces : List Bytes) : Nat :=
  (feedAll setTarInfo (init folderRenamePrefix, []) pieces).1.1.derived.da.count

/-- One naming explains the whole run, and it has as many names as were given. -/
theorem processedAll_named (folderRenamePrefix : Bytes) (plain : slash ∉ folderRenamePrefix)
    (pieces : List Bytes) :
    ∃ naming : FreshNaming Bytes, naming.count = namesGiven folderRenamePrefix pieces ∧
      ∀ p ∈ processedAll folderRenamePrefix pieces,
        TarFilenameProcessor.NamedFor folderRenamePrefix naming p.1 p.2 := by
  obtain ⟨naming, _, rep, named⟩ := ((machine setTarInfo).observe processed).run_simulated
    (fun n s => Represents folderRenamePrefix n s.derived.da)
    (fun n p => TarFilenameProcessor.NamedFor folderRenamePrefix n p.1 p.2)
    (fun _ _ _ up old => old.mono up)
    (fun n s block _ _ rep => feedBlock_named plain n s block rep)
    FreshNaming.empty (init folderRenamePrefix) _
    (BlockMachine.mem_blocks_length tarBlockSize pieces.flatten)
    (init_represents folderRenamePrefix)
  refine ⟨naming, ?_, ?_⟩
  · have count := rep.2.1
    rw [BlockMachine.observe_run_state] at count
    rw [namesGiven, feedAll_eq_machine, ((machine setTarInfo).feedAll_eq_run _ pieces).1]
    exact count.symm
  · rw [processedAll, (((machine setTarInfo).observe processed).feedAll_eq_run _ pieces).2.1]
    exact named

/-- A name that reaches `on_write` was made of a name in the archive. -/
theorem calls_processed (folderRenamePrefix : Bytes) (pieces : List Bytes) :
    ∀ call ∈ (feedAll setTarInfo (init folderRenamePrefix, []) pieces).2,
      ∃ p ∈ processedAll folderRenamePrefix pieces, call.info.name = p.2 := by
  have accounted := (machine setTarInfo).run_accounted processed NameSeen
    (fun seen call => ∃ p ∈ seen, call.info.name = p.2)
    (fun seen more call ⟨p, member, name⟩ => ⟨p, List.mem_append_left _ member, name⟩)
    feedBlock_nameSeen [] (init folderRenamePrefix)
    (BlockMachine.blocks tarBlockSize pieces.flatten)
    (fun now => by cases now)
  rw [feedAll_eq_machine, ((machine setTarInfo).feedAll_eq_run _ pieces).2.1, processedAll,
    (((machine setTarInfo).observe processed).feedAll_eq_run _ pieces).2.1]
  exact accounted

/-- As long as the counter is an `int`: names that reach `on_write` are names of the archive with
other directories, they stay inside made-up directories, and over the run two directory components
get one new name exactly when they are one component. -/
theorem names_contained_renaming_injective (folderRenamePrefix : Bytes)
    (plain : slash ∉ folderRenamePrefix) (pieces : List Bytes)
    (few : namesGiven folderRenamePrefix pieces < 2 ^ 31) :
    (∀ call ∈ (feedAll setTarInfo (init folderRenamePrefix, []) pieces).2,
      (∃ p ∈ processedAll folderRenamePrefix pieces, call.info.name = p.2) ∧
      ∀ dir ∈ (call.info.name.splitOn slash).dropLast,
        (∃ k, 0 < k ∧ k < 2 ^ 31 ∧ dir = folderRenamePrefix ++ decimal k) ∧
          dir ≠ [] ∧ dir ≠ ascii "..") ∧
    (∀ p ∈ processedAll folderRenamePrefix pieces,
      (p.2.splitOn slash).dropLast.length = (TarFilenameProcessor.directories p.1).length) ∧
    (∀ p ∈ renamingsAll folderRenamePrefix pieces, ∀ q ∈ renamingsAll folderRenamePrefix pieces,
      p.1 = q.1 ↔ p.2 = q.2) := by
  obtain ⟨naming, count, all⟩ := processedAll_named folderRenamePrefix plain pieces
  have numbered (pair : Bytes × Bytes) (member : pair ∈ renamingsAll folderRenamePrefix pieces) :
      Named folderRenamePrefix naming pair := by
    obtain ⟨p, seen, inside⟩ := List.mem_flatMap.mp member
    exact (all p seen).named pair inside
  refine ⟨fun call member => ?_, fun p member => (all p member).length, fun p hp q hq => ?_⟩
  · obtain ⟨p, seen, name⟩ := calls_processed folderRenamePrefix pieces call member
    refine ⟨⟨p, seen, name⟩, fun dir inside => ?_⟩
    rw [name] at inside
    -- the component stands in the place of one of the archive, so its number is one of the naming
    obtain ⟨i, bound, rfl⟩ := List.mem_iff_getElem.mp inside
    have bound' : i < (TarFilenameProcessor.directories p.1).length := by
      rw [← (all p seen).length]
      exact bound
    have pair := (all p seen).named
      ((TarFilenameProcessor.directories p.1)[i], ((p.2.splitOn slash).dropLast)[i])
      (List.mem_iff_getElem.mpr ⟨i, by
        rw [TarFilenameProcessor.renamings, List.length_zip, (all p seen).length, Nat.min_self]
        exact bound', by simp [TarFilenameProcessor.renamings]⟩)
    obtain ⟨k, known, new⟩ := pair
    have bounds := naming.bounded _ k known
    simp only at new
    rw [new]
    exact ⟨⟨k, bounds.1, by omega, rfl⟩, numbered_ne folderRenamePrefix k⟩
  · -- both pairs agree with the naming at the end of the run
    obtain ⟨i, pKnown, pName⟩ := numbered p hp
    obtain ⟨j, qKnown, qName⟩ := numbered q hq
    rw [naming.index_eq_iff p.1 q.1 i j pKnown qKnown, pName, qName, List.append_cancel_left_eq,
      decimal_injective.eq_iff]

/-- The blocks of a file under a path that climbs out. -/
def climbing : List Bytes :=
  [ascii "../x.eml" ++ List.replicate 116 0 ++ ascii "00000000001" ++ List.replicate 21 0 ++
    ascii "0" ++
    List.replicate 100 0 ++ ascii "ustar" ++ List.replicate 250 0,
    ascii "m" ++ List.replicate 511 0]

theorem names_contained_renaming_injective_climbing :
    (∀ call ∈ (feedAll setTarInfo (init (ascii "D"), []) climbing).2,
      (∃ p ∈ processedAll (ascii "D") climbing, call.info.name = p.2) ∧
      ∀ dir ∈ (call.info.name.splitOn slash).dropLast,
        (∃ k, 0 < k ∧ k < 2 ^ 31 ∧ dir = ascii "D" ++ decimal k) ∧ dir ≠ [] ∧ dir ≠ ascii "..") ∧
    (∀ p ∈ processedAll (ascii "D") climbing,
      (p.2.splitOn slash).dropLast.length = (TarFilenameProcessor.directories p.1).length) ∧
    (∀ p ∈ renamingsAll (ascii "D") climbing, ∀ q ∈ renamingsAll (ascii "D") climbing,
      p.1 = q.1 ↔ p.2 = q.2) :=
  names_contained_renaming_injective (ascii "D") (by decide) climbing (by decide +kernel)

end ZimbraUntarStream

end Zn
