import MyStudy.Zn.FolderVector
import MyStudy.Zn.Mailbox

/-!
# The filter sequence

`main` runs the filters of the folder list and of the mailbox in turns: folders are dropped,
renamed and encoded, mails are dropped and redirected, and at the end the parents of every folder
with mail are looked up by name. The sequence keeps its references if every mail leads to a folder
that is left, and every directory above that folder is left, too.
-/
namespace Zn

namespace FolderVector

variable (cfg : Config) (stdSort : ComparisonSort) (v : FolderVector)

/-- `zn_folder_unnecessary_folder_remover::perform` erases entries and sorts the others. -/
def remove : FolderVector where
  entries := unnecessaryFolderRemover cfg stdSort v.entries
  capacity := v.capacity
  fits := by
    rw [unnecessaryFolderRemover, (stdSort.perm _ _).length_eq]
    exact (List.length_filter_le _ _).trans v.fits

/-- `zn_folder_name_changer::perform` changes them in place. -/
def change : FolderVector where
  entries := folderNameChanger v.entries
  capacity := v.capacity
  fits := by
    rw [folderNameChanger, List.length_map]
    exact v.fits

end FolderVector

/-- What a run of the filters comes to. -/
inductive FilterRun where
  | returns (folders : List FolderInfo) (mailbox : List MailboxEntry)
  | throws (e : FilterError)
  /-- The encoder uses an invalid iterator. Its rounds are never used up. -/
  | undefined
  deriving DecidableEq

/-- The filters `main` adds to the folder list and to the mailbox, in the order it performs them.
The first exception ends the sequence. -/
def filterSequence (cfg : Config) (stdSort : ComparisonSort) (iconv : Iconv)
    (folders : FolderVector) (mailbox : List MailboxEntry) : FilterRun :=
  let folders := folders.remove cfg stdSort
  let mailbox := mailboxSorter stdSort (mailboxLimiter cfg stdSort mailbox)
  match folderVectorEncoder cfg iconv folders.change with
  | .returns folders replaced =>
    let mailbox := mailboxBackupFolderReplacement cfg replaced mailbox
    match folderPrioritySorter cfg stdSort (mailboxMailCounter mailbox) folders.entries with
    | .ok folders => .returns folders mailbox
    | .error e => .throws e
  | .throws e => .throws e
  | .invalidIterator | .goesOn => .undefined

/-- The encoder leaves every folder with the name it has encoded. -/
theorem folderVectorEncoder_names (cfg : Config) (iconv : Iconv) (v v' : FolderVector)
    (replaced : List Int) (done : folderVectorEncoder cfg iconv v = .returns v' replaced)
    (f : FolderInfo) (member : f ∈ v'.entries) :
    convertFolderPath iconv f.name = .ok f.utf7name := by
  have own (g : FolderInfo) (among : g ∈ v.entries.filterMap (encodeFolder iconv)) :
      convertFolderPath iconv g.name = .ok g.utf7name := by
    obtain ⟨h, _, encoded⟩ := List.mem_filterMap.mp among
    cases converted : convertFolderPath iconv h.name with
    | error e =>
      rw [encodeFolder_error converted] at encoded
      cases encoded
    | ok utf7name =>
      rw [encodeFolder_ok converted] at encoded
      rw [← Option.some.inj encoded]
      exact converted
  have spec := folderVectorEncoder_encoded cfg iconv v
  rw [done] at spec
  cases spec with
  | kept _ _ entries =>
    rw [entries] at member
    exact own f member
  | added _ utf7name _ backup _ entries =>
    -- a folder of the list, or the backup folder, which is encoded when it is pushed
    rw [entries] at member
    rcases List.mem_append.mp member with among | last
    · exact own f among
    · rw [List.mem_singleton.mp last]
      exact backup

theorem filterSequence_encoded (cfg : Config) (stdSort : ComparisonSort) (iconv : Iconv)
    (folders : FolderVector) (folders' : List FolderInfo) (mailbox mailbox' : List MailboxEntry)
    (done : filterSequence cfg stdSort iconv folders mailbox = .returns folders' mailbox')
    (f : FolderInfo) (member : f ∈ folders') : convertFolderPath iconv f.name = .ok f.utf7name := by
  rw [filterSequence] at done
  split at done
  next v replaced result =>
    dsimp only at done
    split at done
    next sorted =>
      obtain ⟨rfl, -⟩ := FilterRun.returns.inj done
      -- the sorter after the encoder makes no folder
      have kept := (folderPrioritySorter_mem cfg stdSort _ _ _ sorted f).1 member
      exact folderVectorEncoder_names cfg iconv _ _ _ result f kept
    · cases done
  all_goals cases done

/-- The folders of an account as `get_zimbra_folder` builds them, with the room their vector has,
and a mailbox over them. -/
structure Account where
  folders : List FolderInfo
  capacity : Nat
  fits : folders.length ≤ capacity
  mailbox : List MailboxEntry
  ids_nodup : (folders.map (·.id)).Nodup
  names_nodup : (folders.map (·.name)).Nodup
  absolute : ∀ f ∈ folders, f.name.head? = some slash
  parents : ∀ f ∈ folders, dirname f.name ≠ [] → ∃ g ∈ folders, g.name = dirname f.name
  known : ∀ e ∈ mailbox, ∃ f ∈ folders, f.id = e.metafile.folderId

/-! ### What is left of an account -/

namespace Account

variable (a : Account) (cfg : Config) (iconv : Iconv)

/-- The folder is migrated under its own name. -/
def Migrates (f : FolderInfo) : Prop :=
  f ∈ a.folders ∧ keepsFolder cfg f = true ∧ encodes iconv (changeName f.name) = true

/-- The folder is not dropped, but its name cannot be encoded. -/
def GivenUp (f : FolderInfo) : Prop :=
  f ∈ a.folders ∧ keepsFolder cfg f = true ∧ encodes iconv (changeName f.name) = false

/-- The backup folder is added: there is something to send to it, and no folder of the account
stands in its place. -/
def BackupAdded : Prop :=
  (∃ f, a.GivenUp cfg iconv f) ∧
    ¬ ∃ f ∈ a.folders, keepsFolder cfg f = true ∧ f.id = cfg.nsimBackupFolderId ∧
      ∀ g ∈ a.folders, keepsFolder cfg g = true → g.id ≤ f.id

/-- A path is left: of a folder, or the one of the backup folder. -/
def PathLeft (name : Bytes) : Prop :=
  (∃ f, a.Migrates cfg iconv f ∧ changeName f.name = name) ∨
    (a.BackupAdded cfg iconv ∧ backupFolderName cfg = name)

/-- An id leads to a path: of its folder, or else of the backup folder. -/
def LeadsTo (id : Int) (name : Bytes) : Prop :=
  (∃ f, a.Migrates cfg iconv f ∧ f.id = id ∧ changeName f.name = name) ∨
    ((∀ f, a.Migrates cfg iconv f → f.id ≠ id) ∧ a.BackupAdded cfg iconv ∧
      cfg.nsimBackupFolderId = id ∧ backupFolderName cfg = name)

/-- The id under which a mail is migrated. -/
def Redirects (id target : Int) : Prop :=
  ((∃ f, a.GivenUp cfg iconv f ∧ f.id = id) ∧ target = cfg.nsimBackupFolderId) ∨
    ((∀ f, a.GivenUp cfg iconv f → f.id ≠ id) ∧ target = id)

/-- The mails of a folder have a place to go: the path their id leads to after redirection, with
all the directories above it. The id -1 never leads anywhere. -/
def Placed (id : Int) : Prop :=
  ∃ target name, a.Redirects cfg iconv id target ∧ target ≠ -1 ∧ a.LeadsTo cfg iconv target name ∧
    ∀ dir ∈ parentDirs name.length name, a.PathLeft cfg iconv dir

/-- The sequence ends before any lookup: the backup folder is needed and its name cannot be
encoded. -/
def EndsEarly : Prop :=
  a.BackupAdded cfg iconv ∧ encodes iconv (backupFolderName cfg) = false

/-- The backup folder finds room behind the folders that are not dropped. -/
def HasRoom : Prop :=
  a.BackupAdded cfg iconv → (a.folders.filter (keepsFolder cfg)).length < a.capacity

/-! ### The folder filters -/

section Folders

variable (stdSort : ComparisonSort)

/-- The folders before the filters. -/
def vector : FolderVector := ⟨a.folders, a.capacity, a.fits⟩

/-- The folder list that the encoder is given. -/
def renamed : List FolderInfo :=
  folderNameChanger (unnecessaryFolderRemover cfg stdSort a.folders)

theorem length_renamed :
    (a.renamed cfg stdSort).length = (a.folders.filter (keepsFolder cfg)).length := by
  rw [renamed, folderNameChanger, List.length_map, unnecessaryFolderRemover,
    (stdSort.perm _ _).length_eq]

theorem mem_renamed (r : FolderInfo) :
    r ∈ a.renamed cfg stdSort ↔ ∃ f ∈ a.folders, keepsFolder cfg f = true ∧
      { f with name := changeName f.name } = r := by
  simp [renamed, folderNameChanger, unnecessaryFolderRemover, and_assoc]

theorem mem_givenUpIds (id : Int) :
    id ∈ givenUpIds iconv (a.renamed cfg stdSort) ↔ ∃ f, a.GivenUp cfg iconv f ∧ f.id = id := by
  simp only [givenUpIds, List.mem_map, List.mem_filter, mem_renamed]
  constructor
  · rintro ⟨_, ⟨⟨f, member, keeps, rfl⟩, bad⟩, rfl⟩
    exact ⟨f, ⟨member, keeps, by simpa using bad⟩, rfl⟩
  · rintro ⟨f, ⟨member, keeps, bad⟩, rfl⟩
    exact ⟨_, ⟨⟨f, member, keeps, rfl⟩, by simpa using bad⟩, rfl⟩

/-- The last folder of the list has the largest id. -/
theorem last_is_backup_iff :
    (a.renamed cfg stdSort).getLast?.map (·.id) = some cfg.nsimBackupFolderId ↔
      ∃ f ∈ a.folders, keepsFolder cfg f = true ∧ f.id = cfg.nsimBackupFolderId ∧
        ∀ g ∈ a.folders, keepsFolder cfg g = true → g.id ≤ f.id := by
  have ids : (a.renamed cfg stdSort).getLast?.map (·.id) =
      (unnecessaryFolderRemover cfg stdSort a.folders).getLast?.map (·.id) := by
    rw [renamed, folderNameChanger, List.getLast?_map, Option.map_map]
    rfl
  -- the remover leaves the list sorted by id
  have order (last : FolderInfo)
      (isLast : (unnecessaryFolderRemover cfg stdSort a.folders).getLast? = some last)
      (g : FolderInfo) (member : g ∈ a.folders) (keeps : keepsFolder cfg g = true) :
      g.id ≤ last.id := by
    have below :=
      stdSort.not_lt_last _ _ (strictWeak_of_key fun f : FolderInfo => f.id) last isLast g
      (List.mem_filter.mpr ⟨member, keeps⟩)
    simpa using below
  rw [ids, Option.map_eq_some_iff]
  constructor
  · rintro ⟨last, isLast, backup⟩
    have among := List.mem_of_getLast? isLast
    rw [unnecessaryFolderRemover, stdSort.mem_sort, List.mem_filter] at among
    exact ⟨last, among.1, among.2, backup, order last isLast⟩
  · rintro ⟨f, member, keeps, backup, largest⟩
    have among : f ∈ unnecessaryFolderRemover cfg stdSort a.folders := by
      rw [unnecessaryFolderRemover, stdSort.mem_sort]
      exact List.mem_filter.mpr ⟨member, keeps⟩
    cases isLast : (unnecessaryFolderRemover cfg stdSort a.folders).getLast? with
    | none =>
      rw [List.getLast?_eq_none_iff.mp isLast] at among
      simp at among
    | some last =>
      have lastAmong := List.mem_of_getLast? isLast
      rw [unnecessaryFolderRemover, stdSort.mem_sort, List.mem_filter] at lastAmong
      have above := order last isLast f member keeps
      have below := largest last lastAmong.1 lastAmong.2
      exact ⟨last, rfl, by omega⟩

theorem addsBackup_iff :
    addsBackup cfg iconv (a.renamed cfg stdSort) = true ↔ a.BackupAdded cfg iconv := by
  have some_ : (a.renamed cfg stdSort).any (fun f => !encodes iconv f.name) = true ↔
      ∃ f, a.GivenUp cfg iconv f := by
    simp only [List.any_eq_true, mem_renamed]
    constructor
    · rintro ⟨_, ⟨f, member, keeps, rfl⟩, bad⟩
      exact ⟨f, member, keeps, by simpa using bad⟩
    · rintro ⟨f, member, keeps, bad⟩
      exact ⟨_, ⟨f, member, keeps, rfl⟩, by simpa using bad⟩
  rw [addsBackup, Bool.and_eq_true, some_, BackupAdded, ← last_is_backup_iff a cfg stdSort,
    decide_eq_true_eq]

theorem mem_encoded (g : FolderInfo) (member : g ∈ (a.renamed cfg stdSort).filterMap
    (encodeFolder iconv)) :
    ∃ f, a.Migrates cfg iconv f ∧ f.id = g.id ∧ changeName f.name = g.name := by
  obtain ⟨_, among, encoded⟩ := List.mem_filterMap.mp member
  obtain ⟨f, known, keeps, rfl⟩ := (a.mem_renamed cfg stdSort _).mp among
  cases converted : convertFolderPath iconv (changeName f.name) with
  | error e =>
    rw [encodeFolder_error converted] at encoded
    cases encoded
  | ok utf7name =>
    rw [encodeFolder_ok converted] at encoded
    rw [← Option.some.inj encoded]
    exact ⟨f, ⟨known, keeps, encodes_ok converted⟩, rfl, rfl⟩

theorem exists_encoded (f : FolderInfo) (migrates : a.Migrates cfg iconv f) :
    ∃ g ∈ (a.renamed cfg stdSort).filterMap (encodeFolder iconv),
      g.id = f.id ∧ g.name = changeName f.name := by
  obtain ⟨known, keeps, fine⟩ := migrates
  cases converted : convertFolderPath iconv (changeName f.name) with
  | error e =>
    rw [encodes_error converted] at fine
    cases fine
  | ok utf7name =>
    exact ⟨⟨changeName f.name, utf7name, f.id⟩, List.mem_filterMap.mpr
      ⟨_, (a.mem_renamed cfg stdSort _).mpr ⟨f, known, keeps, rfl⟩, encodeFolder_ok converted⟩,
      rfl, rfl⟩

theorem folder_of_id (f g : FolderInfo) (f_known : f ∈ a.folders) (g_known : g ∈ a.folders)
    (same : f.id = g.id) : f = g :=
  List.inj_on_of_nodup_map a.ids_nodup f_known g_known same

/-- The encoder leaves a list with the paths and ids of the abstract account. -/
structure Left (folders : List FolderInfo) (replaced : List Int) : Prop where
  path : ∀ name, (∃ g ∈ folders, g.name = name) ↔ a.PathLeft cfg iconv name
  leads : ∀ id name, (∃ g, folders.find? (fun info => info.id = id) = some g ∧ g.name = name) ↔
    a.LeadsTo cfg iconv id name
  replaced : ∀ id, id ∈ replaced ↔ ∃ f, a.GivenUp cfg iconv f ∧ f.id = id

theorem find_encoded (id : Int) (name : Bytes) :
    (∃ g, ((a.renamed cfg stdSort).filterMap (encodeFolder iconv)).find?
        (fun info => info.id = id) = some g ∧ g.name = name) ↔
      ∃ f, a.Migrates cfg iconv f ∧ f.id = id ∧ changeName f.name = name := by
  constructor
  · rintro ⟨g, found, rfl⟩
    obtain ⟨f, migrates, same, path⟩ :=
      a.mem_encoded cfg iconv stdSort g (List.mem_of_find?_eq_some found)
    have here : g.id = id := by simpa using List.find?_some found
    exact ⟨f, migrates, same.trans here, path⟩
  · rintro ⟨f, migrates, rfl, rfl⟩
    obtain ⟨g, member, id, name⟩ := a.exists_encoded cfg iconv stdSort f migrates
    cases found : ((a.renamed cfg stdSort).filterMap (encodeFolder iconv)).find?
        (fun info => info.id = f.id) with
    | none =>
      have absent := List.find?_eq_none.mp found g member
      simp [id] at absent
    | some g' =>
      -- the ids of an account are distinct, so this is the folder itself
      obtain ⟨f', migrates', same, path⟩ :=
        a.mem_encoded cfg iconv stdSort g' (List.mem_of_find?_eq_some found)
      have here : g'.id = f.id := by simpa using List.find?_some found
      have := a.folder_of_id f' f migrates'.1 migrates.1 (same.trans here)
      subst this
      exact ⟨g', rfl, path.symm⟩

theorem find_encoded_none (id : Int) :
    ((a.renamed cfg stdSort).filterMap (encodeFolder iconv)).find? (fun info => info.id = id) =
      none ↔ ∀ f, a.Migrates cfg iconv f → f.id ≠ id := by
  rw [List.find?_eq_none]
  constructor
  · rintro absent f migrates rfl
    obtain ⟨g, member, id, _⟩ := a.exists_encoded cfg iconv stdSort f migrates
    exact absent g member (by simp [id])
  · intro absent g member here
    obtain ⟨f, migrates, same, _⟩ := a.mem_encoded cfg iconv stdSort g member
    exact absent f migrates (same.trans (by simpa using here))

theorem exists_path_iff (name : Bytes) :
    (∃ g ∈ (a.renamed cfg stdSort).filterMap (encodeFolder iconv), g.name = name) ↔
      ∃ f, a.Migrates cfg iconv f ∧ changeName f.name = name := by
  constructor
  · rintro ⟨g, member, rfl⟩
    obtain ⟨f, migrates, _, path⟩ := a.mem_encoded cfg iconv stdSort g member
    exact ⟨f, migrates, path⟩
  · rintro ⟨f, migrates, rfl⟩
    obtain ⟨g, member, _, path⟩ := a.exists_encoded cfg iconv stdSort f migrates
    exact ⟨g, member, path⟩

/-- Without the backup folder the list is that of the folders that migrate. -/
theorem left_kept (notAdded : ¬ a.BackupAdded cfg iconv) :
    a.Left cfg iconv ((a.renamed cfg stdSort).filterMap (encodeFolder iconv))
      (givenUpIds iconv (a.renamed cfg stdSort)) where
  path name := by
    rw [exists_path_iff, PathLeft]
    simp [notAdded]
  leads id name := by
    rw [find_encoded, LeadsTo]
    simp [notAdded]
  replaced := a.mem_givenUpIds cfg iconv stdSort

/-- The backup folder stands behind the others, so their ids are found first. -/
theorem left_added (added : a.BackupAdded cfg iconv) (utf7name : Bytes) :
    a.Left cfg iconv ((a.renamed cfg stdSort).filterMap (encodeFolder iconv) ++
        [⟨backupFolderName cfg, utf7name, cfg.nsimBackupFolderId⟩])
      (givenUpIds iconv (a.renamed cfg stdSort)) where
  path name := by
    rw [PathLeft, ← exists_path_iff a cfg iconv stdSort]
    simp only [List.mem_append, List.mem_singleton, or_and_right, exists_or, exists_eq_left,
      added, true_and]
  leads id name := by
    rw [LeadsTo, ← find_encoded a cfg iconv stdSort, ← find_encoded_none a cfg iconv stdSort,
      List.find?_append]
    cases found : ((a.renamed cfg stdSort).filterMap (encodeFolder iconv)).find?
        (fun info => info.id = id) with
    | some g => simp
    | none => by_cases same : cfg.nsimBackupFolderId = id <;> simp [added, same]
  replaced := a.mem_givenUpIds cfg iconv stdSort

/-- What the encoder comes to on the folders of an account. -/
inductive EncoderLeft : EncoderRun → Prop
  | early (e : FolderNameError) (ends : a.EndsEarly cfg iconv) :
      EncoderLeft (.throws (.folderName e))
  | full (late : ¬ a.EndsEarly cfg iconv) (full : ¬ a.HasRoom cfg iconv) :
      EncoderLeft .invalidIterator
  | left (v : FolderVector) (replaced : List Int) (late : ¬ a.EndsEarly cfg iconv)
      (room : a.HasRoom cfg iconv) (ok : a.Left cfg iconv v.entries replaced) :
      EncoderLeft (.returns v replaced)

theorem encoder_left :
    a.EncoderLeft cfg iconv
      (folderVectorEncoder cfg iconv (a.vector.remove cfg stdSort).change) := by
  have length := a.length_renamed cfg stdSort
  have added := a.addsBackup_iff cfg iconv stdSort
  have spec := folderVectorEncoder_encoded cfg iconv (a.vector.remove cfg stdSort).change
  generalize folderVectorEncoder cfg iconv (a.vector.remove cfg stdSort).change = run at spec ⊢
  cases spec with
  | kept v' not entries =>
    have notAdded : ¬ a.BackupAdded cfg iconv := by
      rw [← added]
      exact Bool.eq_false_iff.mp not
    refine .left v' _ (fun early => notAdded early.1) (fun needed => absurd needed notAdded) ?_
    rw [entries]
    exact a.left_kept cfg iconv stdSort notAdded
  | fails e adds backup => exact .early e ⟨added.mp adds, encodes_error backup⟩
  | added v' utf7name adds backup room entries =>
    have late : ¬ a.EndsEarly cfg iconv := fun early => by
      rw [EndsEarly, encodes_ok backup] at early
      cases early.2
    refine .left v' _ late (fun _ => length ▸ room) ?_
    rw [entries]
    exact a.left_added cfg iconv stdSort (added.mp adds) utf7name
  | moved utf7name adds backup full =>
    refine .full (fun early => ?_) fun room => full (length.symm ▸ room (added.mp adds))
    rw [EndsEarly, encodes_ok backup] at early
    cases early.2

/-- No path that is left is empty, so nothing is found under the id -1. -/
theorem pathLeft_ne_nil (name : Bytes) (left : a.PathLeft cfg iconv name) : name ≠ [] := by
  rcases left with ⟨f, migrates, rfl⟩ | ⟨_, rfl⟩
  -- a path starts with a slash, and renaming does not take it away
  · have some_ : f.name ≠ [] := by
      intro none_
      have := a.absolute f migrates.1
      rw [none_] at this
      simp at this
    exact changeName_ne_nil f.name some_
  · simp [backupFolderName, ascii]

variable {a cfg iconv} in
/-- In the list that is left, the lookups of the priority sorter succeed for an id exactly if the
id leads to a path and every directory above it is left. -/
theorem Left.parentsFound_iff {folders : List FolderInfo} {replaced : List Int}
    (left : a.Left cfg iconv folders replaced) (id : Int) :
    ParentsFound folders id ↔ id ≠ -1 ∧ ∃ name, a.LeadsTo cfg iconv id name ∧
      ∀ dir ∈ parentDirs name.length name, a.PathLeft cfg iconv dir := by
  by_cases proper : id = -1
  · subst proper
    -- a search by the id -1 is one by the empty name
    have nowhere : getFolderInfo folders (-1) =
        .error (.folderInfo "get folder info by id error.") := by
      have absent : folders.find? (fun info => info.name = []) = none := by
        rw [List.find?_eq_none]
        intro g member empty
        have := a.pathLeft_ne_nil cfg iconv g.name ((left.path g.name).mp ⟨g, member, rfl⟩)
        simp [this] at empty
      simp [getFolderInfo, absent]
    rw [ParentsFound, nowhere]
    simp
  · rw [ParentsFound, getFolderInfo_eq_find folders id proper]
    simp only [ne_eq, proper, not_false_eq_true, true_and, ← left.leads, ← left.path]
    cases folders.find? (fun info => info.id = id) <;> simp

end Folders

/-! ### The mails -/

theorem mem_keys_mailCounter (entries : List MailboxEntry) (key : Int) :
    key ∈ (mailboxMailCounter entries).keys ↔ ∃ e ∈ entries, e.metafile.folderId = key := by
  -- for the induction the counter has to start from anything
  suffices general : ∀ counter : MailCounter,
      key ∈ (entries.foldl (fun c e => c.add e.metafile.folderId 1) counter).keys ↔
        key ∈ counter.keys ∨ ∃ e ∈ entries, e.metafile.folderId = key by
    rw [mailboxMailCounter, general [], or_iff_right (by simp [MailCounter.keys])]
  induction entries with
  | nil => simp
  | cons e entries ih =>
    intro counter
    rw [List.foldl_cons, ih, MailCounter.mem_keys_add, List.exists_mem_cons_iff]
    simp only [eq_comm, or_assoc, or_left_comm]

/-- The mails the sequence ends with, under the ids they are migrated under. -/
def migratedMails (stdSort : ComparisonSort) (replaced : List Int) : List MailboxEntry :=
  mailboxBackupFolderReplacement cfg replaced
    (mailboxSorter stdSort (mailboxLimiter cfg stdSort a.mailbox))

theorem filterSequence_eq (stdSort : ComparisonSort) :
    filterSequence cfg stdSort iconv a.vector a.mailbox =
      match folderVectorEncoder cfg iconv (a.vector.remove cfg stdSort).change with
      | .returns v replaced =>
        match folderPrioritySorter cfg stdSort
            (mailboxMailCounter (a.migratedMails cfg stdSort replaced)) v.entries with
        | .ok folders => .returns folders (a.migratedMails cfg stdSort replaced)
        | .error e => .throws e
      | .throws e => .throws e
      | .invalidIterator | .goesOn => .undefined := rfl

variable {a cfg iconv} in
/-- Every id of a migrated mail is found, with all the directories above, exactly if every mail
the limiter keeps is placed. -/
theorem Left.mails_placed_iff {folders : List FolderInfo} {replaced : List Int}
    (left : a.Left cfg iconv folders replaced) (stdSort : ComparisonSort) :
    (∀ e ∈ a.migratedMails cfg stdSort replaced, ParentsFound folders e.metafile.folderId) ↔
      ∀ e ∈ mailboxLimiter cfg stdSort a.mailbox, a.Placed cfg iconv e.metafile.folderId := by
  simp only [migratedMails, mailboxBackupFolderReplacement, mailboxSorter, List.forall_mem_map,
    stdSort.mem_sort]
  refine forall₂_congr fun e _ => ?_
  rw [Placed]
  by_cases given : e.metafile.folderId ∈ replaced
  -- the folder was given up: its mails go to the backup folder
  · have redirects (target : Int) : a.Redirects cfg iconv e.metafile.folderId target ↔
        target = cfg.nsimBackupFolderId := by
      have known := (left.replaced _).mp given
      obtain ⟨f, up, same⟩ := known
      rw [Redirects]
      constructor
      · rintro (⟨_, backup⟩ | ⟨none_, _⟩)
        · exact backup
        · exact absurd same (none_ f up)
      · exact fun backup => Or.inl ⟨⟨f, up, same⟩, backup⟩
    simp only [given, if_true, redirects, exists_and_left, exists_eq_left]
    exact left.parentsFound_iff _
  -- the folder was not given up: its mails keep their id
  · have redirects (target : Int) : a.Redirects cfg iconv e.metafile.folderId target ↔
        target = e.metafile.folderId := by
      have none_ : ∀ f, a.GivenUp cfg iconv f → f.id ≠ e.metafile.folderId :=
        fun f up same => given ((left.replaced _).mpr ⟨f, up, same⟩)
      rw [Redirects]
      constructor
      · rintro (⟨⟨f, up, same⟩, _⟩ | ⟨_, same⟩)
        · exact absurd same (none_ f up)
        · exact same
      · exact fun same => Or.inr ⟨none_, same⟩
    simp only [given, if_false, redirects, exists_and_left, exists_eq_left]
    exact left.parentsFound_iff _

end Account

/-- The filter sequence has run to its end or to an exception that is not one of a lookup, and
afterwards the folder of every mail is found. -/
structure KeepsReferences (run : FilterRun) : Prop where
  defined : run ≠ .undefined
  silent : ∀ what, run ≠ .throws (.folderInfo what)
  found : ∀ folders mailbox, run = .returns folders mailbox →
    ∀ e ∈ mailbox, ∃ f ∈ folders, f.id = e.metafile.folderId ∧
      getFolderInfo folders e.metafile.folderId = .ok f

/-- The parameters as they are set for the migration. -/
def Config.migration : Config where
  folderDefaultId := ascii "2,4,5,6"
  folderCustomId := 257
  nsimBackupFolderId := 255
  nsimBackupFolderName := ascii "000"
  nsimMailStoreMax := 1000
  uninit := 0

def trashedMail : MailboxEntry := .ofMeta ⟨[], true, [], 300, 3⟩

/-- An account with a mail in its trash. -/
def trashAccount : Account where
  folders := [⟨ascii "/Inbox", [], 2⟩, ⟨ascii "/Trash", [], 3⟩]
  capacity := 2
  fits := by decide
  mailbox := [trashedMail]
  ids_nodup := by decide
  names_nodup := by decide
  absolute := by decide
  parents := by decide
  known := by decide

end Zn
