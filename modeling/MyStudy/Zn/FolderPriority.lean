import MyStudy.Lib.StrictWeakOn
import MyStudy.Zn.MailTotals

/-!
# The order of the folders

`folder_info_priority_cmp` puts a folder before another when one of three criteria does. The
criteria are to be taken in turn, and two of them may disagree.
-/
namespace Zn

/-! ### The criteria -/

section Criteria

variable (cfg : Config) (mail : FolderInfo → Prop)

/-- One of the criteria puts `a` before `b`. -/
def Criterion (a b : FolderInfo) : Prop :=
  (mail a ∧ ¬ mail b) ∨ folderLevel a.name < folderLevel b.name ∨ a.id < b.id

/-- The criteria in turn, with the backup folder behind all the others. -/
def Precedes (a b : FolderInfo) : Prop :=
  a.id ≠ cfg.nsimBackupFolderId ∧ (b.id = cfg.nsimBackupFolderId ∨ (mail a ∧ ¬ mail b) ∨
    ((mail a ↔ mail b) ∧ (folderLevel a.name < folderLevel b.name ∨
      (folderLevel a.name = folderLevel b.name ∧ a.id < b.id))))

/-- Of two folders the one with the smaller id is behind by no other criterion. -/
def CriteriaAgree (folders : List FolderInfo) : Prop :=
  ∀ a ∈ folders, ∀ b ∈ folders, a.id ≠ cfg.nsimBackupFolderId → b.id ≠ cfg.nsimBackupFolderId →
    a.id < b.id → (mail b → mail a) ∧ folderLevel a.name ≤ folderLevel b.name

/-- A folder that no criterion puts before the backup folder is the one with the largest id. -/
def BackupBehind (folders : List FolderInfo) : Prop :=
  ∀ a ∈ folders, ∀ b ∈ folders, a.id ≠ cfg.nsimBackupFolderId → b.id = cfg.nsimBackupFolderId →
    ¬ Criterion mail a b → ∀ c ∈ folders, c.id ≠ cfg.nsimBackupFolderId → c.id ≤ a.id

/-- The folder stays in the list. -/
def Stays (f : FolderInfo) : Prop := f.id ∈ defaultIdSet cfg → mail f

/-- Of such a folder and the backup folder one goes. -/
def BackupApart (folders : List FolderInfo) : Prop :=
  ∀ a ∈ folders, ∀ b ∈ folders, a.id ≠ cfg.nsimBackupFolderId → b.id = cfg.nsimBackupFolderId →
    ¬ Criterion mail a b → ¬ (Stays cfg mail a ∧ Stays cfg mail b)

variable {cfg mail} {folders : List FolderInfo} (identified : (folders.map FolderInfo.id).Nodup)

include identified

theorem folder_ext {f g : FolderInfo} (memberF : f ∈ folders) (memberG : g ∈ folders)
    (same : f.id = g.id) :
    f = g := List.inj_on_of_nodup_map identified memberF memberG same

theorem not_criterion_of_le (agree : CriteriaAgree cfg mail folders) {a c : FolderInfo}
    (memberA : a ∈ folders) (memberC : c ∈ folders) (properA : a.id ≠ cfg.nsimBackupFolderId)
    (properC : c.id ≠ cfg.nsimBackupFolderId) (upto : c.id ≤ a.id) : ¬ Criterion mail a c := by
  rcases upto.lt_or_eq with less | same
  · obtain ⟨mails, level⟩ := agree c memberC a memberA properC properA less
    rintro (⟨has, hasNot⟩ | nearer | smaller)
    · exact hasNot (mails has)
    · omega
    · omega
  · obtain rfl := folder_ext identified memberC memberA same
    rintro (⟨has, hasNot⟩ | nearer | smaller)
    · exact hasNot has
    · omega
    · omega

/-- A comparison by the criteria is a strict weak order when these agree, and when no two folders
are as good as the backup folder. -/
theorem strictWeakOn_criteria_iff (cmp : FolderInfo → FolderInfo → Bool)
    (spec : ∀ a ∈ folders, ∀ b ∈ folders,
      cmp a b = true ↔ a.id ≠ cfg.nsimBackupFolderId ∧ Criterion mail a b) :
    StrictWeakOn cmp folders ↔ CriteriaAgree cfg mail folders ∧ BackupBehind cfg mail folders := by
  have below (a b : FolderInfo) (memberA : a ∈ folders) (memberB : b ∈ folders)
      (proper : a.id ≠ cfg.nsimBackupFolderId) (criterion : Criterion mail a b) : cmp a b = true :=
    (spec a memberA b memberB).mpr ⟨proper, criterion⟩
  have notBelow (a b : FolderInfo) (memberA : a ∈ folders) (memberB : b ∈ folders)
      (not : a.id = cfg.nsimBackupFolderId ∨ ¬ Criterion mail a b) : cmp a b = false := by
    rw [← Bool.not_eq_true, spec a memberA b memberB]
    tauto
  constructor
  · intro weak
    constructor
    · intro a memberA b memberB properA properB less
      have other :=
        weak.asymm a memberA b memberB (below a b memberA memberB properA (.inr (.inr less)))
      rw [← Bool.not_eq_true, spec b memberB a memberA] at other
      have none_ : ¬ Criterion mail b a := fun criterion => other ⟨properB, criterion⟩
      rw [Criterion, not_or, not_or] at none_
      exact ⟨by tauto, by omega⟩
    · intro a memberA b memberB properA backup none_ c memberC properC
      by_contra larger
      have ac := below a c memberA memberC properA (.inr (.inr (by omega)))
      have ab := notBelow a b memberA memberB (.inr none_)
      have ba := notBelow b a memberB memberA (.inl backup)
      cases cb : cmp c b with
      | true =>
        rw [weak.trans a memberA c memberC b memberB ac cb] at ab
        cases ab
      | false =>
        -- `a` and `c` would both be as good as the backup folder
        rw [weak.incomparable_trans a memberA b memberB c memberC ab ba
          (notBelow b c memberB memberC (.inl backup)) cb] at ac
        cases ac
  · rintro ⟨agree, behind⟩
    refine .of_trans_not (fun a memberA b memberB ab => ?_)
      fun a memberA b memberB c memberC ab bc => ?_
    · obtain ⟨properA, criterion⟩ := (spec a memberA b memberB).mp ab
      refine notBelow b a memberB memberA ?_
      by_cases backup : b.id = cfg.nsimBackupFolderId
      · exact .inl backup
      · refine .inr (not_criterion_of_le identified agree memberB memberA backup properA ?_)
        by_contra larger
        exact not_criterion_of_le identified agree memberA memberB properA backup
          (by omega) criterion
    · refine notBelow a c memberA memberC (or_iff_not_imp_left.mpr fun properA => ?_)
      have noneAB : ¬ Criterion mail a b := fun criterion => by
        rw [below a b memberA memberB properA criterion] at ab
        cases ab
      by_cases backupB : b.id = cfg.nsimBackupFolderId
      · -- `a` has the largest id
        by_cases backupC : c.id = cfg.nsimBackupFolderId
        · obtain rfl := folder_ext identified memberB memberC (backupB.trans backupC.symm)
          exact noneAB
        · exact not_criterion_of_le identified agree memberA memberC properA backupC
            (behind a memberA b memberB properA backupB noneAB c memberC backupC)
      · have noneBC : ¬ Criterion mail b c := fun criterion => by
          rw [below b c memberB memberC backupB criterion] at bc
          cases bc
        have uptoB : b.id ≤ a.id := not_lt.mp fun less => noneAB (.inr (.inr less))
        have uptoC : c.id ≤ b.id := not_lt.mp fun less => noneBC (.inr (.inr less))
        by_cases backupC : c.id = cfg.nsimBackupFolderId
        · have last := behind b memberB c memberC backupB backupC noneBC a memberA properA
          obtain rfl := folder_ext identified memberA memberB (le_antisymm last uptoB)
          exact noneBC
        · exact not_criterion_of_le identified agree memberA memberC properA backupC
            (uptoC.trans uptoB)

/-- A list in the order of the comparison is in the order of the criteria. -/
theorem precedes_of_sorted (agree : CriteriaAgree cfg mail folders)
    (apart : BackupApart cfg mail folders)
    (cmp : FolderInfo → FolderInfo → Bool)
    (spec : ∀ a ∈ folders, ∀ b ∈ folders,
      cmp a b = true ↔ a.id ≠ cfg.nsimBackupFolderId ∧ Criterion mail a b)
    (stays : FolderInfo → Bool) (staysSpec : ∀ f ∈ folders, stays f = true ↔ Stays cfg mail f)
    (sorted : List FolderInfo) (perm : sorted.Perm folders)
    (order : sorted.Pairwise fun a b => cmp b a = false) :
    (sorted.filter stays).Pairwise (Precedes cfg mail) := by
  have distinct : sorted.Pairwise fun a b => a.id ≠ b.id := by
    rw [← List.pairwise_map]
    exact (perm.map FolderInfo.id).nodup_iff.mpr identified
  refine ((order.and distinct).filter stays).imp_of_mem fun {a b} stayA stayB both => ?_
  obtain ⟨sortedA, stayA⟩ := List.mem_filter.mp stayA
  obtain ⟨sortedB, stayB⟩ := List.mem_filter.mp stayB
  have memberA := perm.mem_iff.mp sortedA
  have memberB := perm.mem_iff.mp sortedB
  have notBefore := both.1
  rw [← Bool.not_eq_true, spec b memberB a memberA] at notBefore
  rw [staysSpec a memberA] at stayA
  rw [staysSpec b memberB] at stayB
  -- the comparison never puts the backup folder first, whatever the criteria say
  by_cases backupB : b.id = cfg.nsimBackupFolderId
  · exact ⟨fun backupA => both.2 (backupA.trans backupB.symm), .inl backupB⟩
  · have none_ : ¬ Criterion mail b a := fun criterion => notBefore ⟨backupB, criterion⟩
    have properA : a.id ≠ cfg.nsimBackupFolderId := fun backupA =>
      apart b memberB a memberA backupB backupA none_ ⟨stayB, stayA⟩
    rw [Criterion, not_or, not_or] at none_
    -- that is the only criterion left to put the one before the other
    have less : a.id < b.id := lt_of_le_of_ne (not_lt.mp none_.2.2) both.2
    obtain ⟨mails, level⟩ := agree a memberA b memberB properA backupB less
    refine ⟨properA, .inr ?_⟩
    rw [or_iff_not_imp_left, not_and_not_right]
    exact fun same => ⟨⟨same, mails⟩, level.lt_or_eq.imp_right fun equal => ⟨equal, less⟩⟩

/-- Otherwise a sort may put the backup folder before the last one. -/
theorem exists_unordered (agree : CriteriaAgree cfg mail folders)
    (behind : BackupBehind cfg mail folders) (notApart : ¬ BackupApart cfg mail folders)
    (cmp : FolderInfo → FolderInfo → Bool) (weak : StrictWeakOn cmp folders)
    (spec : ∀ a ∈ folders, ∀ b ∈ folders,
      cmp a b = true ↔ a.id ≠ cfg.nsimBackupFolderId ∧ Criterion mail a b)
    (stays : FolderInfo → Bool) (staysSpec : ∀ f ∈ folders, stays f = true ↔ Stays cfg mail f) :
    ∃ stdSort : ComparisonSort, stdSort.SortsOn ∧
      ¬ ((stdSort.sort cmp folders).filter stays).Pairwise (Precedes cfg mail) := by
  rw [BackupApart] at notApart
  push Not at notApart
  obtain ⟨a, memberA, b, memberB, proper, backup, none_, stayA, stayB⟩ := notApart
  have other : a ≠ b := fun same => proper (same ▸ backup)
  -- all the others in front, then the backup folder and the one that it should be behind
  let rest := (folders.erase b).erase a
  have perm : folders.Perm (b :: a :: rest) :=
    (List.perm_cons_erase memberB).trans
      ((List.perm_cons_erase ((List.mem_erase_of_ne other).mpr memberA)).cons b)
  have among {c : FolderInfo} (member : c ∈ rest) : c ∈ folders :=
    List.mem_of_mem_erase (List.mem_of_mem_erase member)
  let front := ComparisonSort.insertion.sort cmp rest
  have behindFront {c : FolderInfo} (member : c ∈ front) : cmp b c = false ∧ cmp a c = false := by
    have memberC := among ((ComparisonSort.insertion.mem_sort cmp rest c).mp member)
    rw [← Bool.not_eq_true, ← Bool.not_eq_true, spec b memberB c memberC, spec a memberA c memberC]
    refine ⟨fun both => both.1 backup, fun both => ?_⟩
    by_cases backupC : c.id = cfg.nsimBackupFolderId
    · obtain rfl := folder_ext identified memberB memberC (backup.trans backupC.symm)
      exact none_ both.2
    · exact not_criterion_of_le identified agree memberA memberC proper backupC
        (behind a memberA b memberB proper backup none_ c memberC backupC) both.2
  -- the comparison has nothing against that order, so some sort may leave it
  have order : (front ++ [b, a]).Pairwise fun x y => cmp y x = false := by
    refine List.pairwise_append.mpr ⟨?_, ?_, ?_⟩
    · exact ComparisonSort.insertion_sortsOn cmp rest (weak.of_subset fun _ => among)
    · refine List.pairwise_pair.mpr ?_
      rw [← Bool.not_eq_true, spec a memberA b memberB]
      exact fun both => none_ both.2
    · intro c member d last
      rcases List.mem_cons.mp last with rfl | last
      · exact (behindFront member).1
      · rw [List.mem_singleton.mp last]
        exact (behindFront member).2
  have permFront : (front ++ [b, a]).Perm folders :=
    (List.perm_append_comm.trans
      ((ComparisonSort.insertion.perm cmp rest).append_left [b, a])).trans
      perm.symm
  obtain ⟨stdSort, sortsOn, result⟩ := ComparisonSort.exists_sort cmp folders _ permFront order
  refine ⟨stdSort, sortsOn, fun precedes => ?_⟩
  have both : [b, a].filter stays = [b, a] := by
    rw [List.filter_eq_self]
    intro c last
    rcases List.mem_cons.mp last with rfl | last
    · exact (staysSpec c memberB).mpr stayB
    · rw [List.mem_singleton.mp last]
      exact (staysSpec a memberA).mpr stayA
  rw [result, List.filter_append, both] at precedes
  exact (List.pairwise_pair.mp (List.pairwise_append.mp precedes).2.1).1 backup

end Criteria

/-! ### The comparison -/

theorem folderPriorityCmp_iff (cfg : Config) (counter : MailCounter) (a b : FolderInfo) :
    folderPriorityCmp cfg counter a b = true ↔
      a.id ≠ cfg.nsimBackupFolderId ∧ Criterion (fun f => f.id ∈ counter.keys) a b := by
  have counted : counter.count a.id > counter.count b.id ↔ a.id ∈ counter.keys ∧
      b.id ∉ counter.keys := by
    rw [MailCounter.count, MailCounter.count]
    split <;> split <;> simp_all
  simp only [folderPriorityCmp, Criterion, ← counted, Bool.and_eq_true, Bool.or_eq_true,
    decide_eq_true_eq, or_assoc]

/-- The folder that a directory above `g` leads to. -/
def IsAbove (folders : List FolderInfo) (f g : FolderInfo) : Prop :=
  ∃ dir ∈ parentDirs g.name.length g.name, getFolderInfoByName folders dir = .ok f

/-- There is mail in the folder, or in one below it. -/
def HoldsMail (folders : List FolderInfo) (counter : MailCounter) (f : FolderInfo) : Prop :=
  f.id ∈ counter.keys ∨ ∃ key ∈ counter.keys, ∃ g, getFolderInfo folders key = .ok g ∧
    IsAbove folders f g

theorem mem_keys_fillParent (folders : List FolderInfo) (n i : Int) (parents : MailCounter)
    (dir : Bytes) (parents' : MailCounter)
    (done : fillParent folders n parents dir = .ok parents') :
    i ∈ parents'.keys ↔ i ∈ parents.keys ∨ ∃ f, getFolderInfoByName folders dir = .ok f ∧
      f.id = i := by
  rw [fillParent] at done
  cases found : getFolderInfoByName folders dir with
  | error e =>
    rw [found] at done
    cases done
  | ok f =>
    rw [found] at done
    obtain rfl := Except.ok.inj done
    rw [MailCounter.mem_keys_add, or_comm]
    simp only [Except.ok.injEq, exists_eq_left', eq_comm]

theorem mem_keys_fillParents (folders : List FolderInfo) (i : Int) (parents : MailCounter)
    (pair : Int × Int) (parents' : MailCounter)
    (done : fillParents folders parents pair = .ok parents') :
    i ∈ parents'.keys ↔ i ∈ parents.keys ∨
      ∃ g, getFolderInfo folders pair.1 = .ok g ∧ ∃ f, IsAbove folders f g ∧ f.id = i := by
  rw [fillParents] at done
  cases found : getFolderInfo folders pair.1 with
  | error e =>
    rw [found] at done
    cases done
  | ok g =>
    rw [found] at done
    have walked := FailingFold.foldlM_collects (fillParent folders pair.2) (fun c => i ∈ c.keys) _
      (mem_keys_fillParent folders pair.2 i) _ parents parents' done
    rw [walked]
    simp only [Except.ok.injEq, exists_eq_left']
    refine or_congr_right ⟨?_, ?_⟩
    · rintro ⟨dir, above, f, named, same⟩
      exact ⟨f, ⟨dir, above, named⟩, same⟩
    · rintro ⟨f, ⟨dir, above, named⟩, same⟩
      exact ⟨dir, above, f, named, same⟩

/-- The filled counter has a key for the folders that hold mail. -/
theorem mem_keys_fill {folders : List FolderInfo} (identified : (folders.map FolderInfo.id).Nodup)
    (counter filled : MailCounter) (done : fillParentFolderMailCounter folders counter = .ok filled)
    (f : FolderInfo) (member : f ∈ folders) : f.id ∈ filled.keys ↔ HoldsMail folders counter f := by
  rw [fillParentFolderMailCounter] at done
  cases walked : counter.foldlM (fillParents folders) [] with
  | error e =>
    rw [walked] at done
    cases done
  | ok parents =>
    rw [walked] at done
    obtain rfl := Except.ok.inj done
    -- the keys of the parents are those of the folders above the counted ones
    have collected := FailingFold.foldlM_collects (fillParents folders) (fun c => f.id ∈ c.keys) _
      (mem_keys_fillParents folders f.id) counter [] parents walked
    rw [MailCounter.mem_keys_insertAll_iff, collected, HoldsMail]
    refine or_congr_right ?_
    rw [or_iff_right (by exact List.not_mem_nil)]
    constructor
    · rintro ⟨pair, listed, g, found, f', above, same⟩
      obtain ⟨dir, up, named⟩ := above
      have listed' : f' ∈ folders := by
        rw [getFolderInfoByName] at named
        split at named
        next first =>
          obtain rfl := Except.ok.inj named
          exact List.mem_of_find?_eq_some first
        · cases named
      obtain rfl := folder_ext identified listed' member same
      exact ⟨pair.1, List.mem_map_of_mem listed, g, found, dir, up, named⟩
    · rintro ⟨key, listed, g, found, above⟩
      obtain ⟨pair, among, rfl⟩ := List.mem_map.mp listed
      exact ⟨pair, among, g, found, f, above, rfl⟩

/-! ### The sorter -/

/-- `dirname`, taken again and again, ends with the empty path. -/
def WalkEnds (name : Bytes) : Prop := ∃ n, dirname^[n + 1] name = []

/-- A path without a slash in front leads to `.`, of which `dirname` makes the same. -/
theorem walkEnds_iff (name : Bytes) : WalkEnds name ↔ name.head? = some slash := by
  constructor
  · contrapose
    rintro relative ⟨n, ends⟩
    -- `dirname` of such a path is `.` or again such a path
    have still (path : Bytes) (relative : path.head? ≠ some slash) :
        dirname path ≠ [] ∧ (dirname path).head? ≠ some slash := by
      by_cases slashed : slash ∈ path
      · obtain ⟨base, whole, -⟩ := exists_base path slashed
        have some_ : dirname path ≠ [] := by
          intro none_
          rw [whole, none_] at relative
          exact relative rfl
        refine ⟨some_, fun first => relative ?_⟩
        rw [whole, List.head?_append, first]
        rfl
      · have dot : dirname path = ascii "." := by
          rw [dirname, findLastOf_eq_none slash path slashed]
        rw [dot]
        decide
    induction n generalizing name with
    | zero => exact (still name relative).1 ends
    | succ n ih => exact ih (dirname name) (still name relative).2 ends
  · intro absolute
    induction len : name.length using Nat.strongRecOn generalizing name with
    | ind l ih =>
      obtain ⟨shorter, inner⟩ := dirname_absolute name absolute
      by_cases top : dirname name = []
      · exact ⟨0, top⟩
      · obtain ⟨n, ends⟩ := ih _ (len ▸ shorter) (dirname name) (inner top) rfl
        exact ⟨n + 1, ends⟩

/-- From the folder of a key the walk up meets listed folders only, and ends at the top. -/
def ReachesTop (folders : List FolderInfo) (key : Int) : Prop :=
  ∃ info, getFolderInfo folders key = .ok info ∧ info.name.head? = some slash ∧
    ∀ dir ∈ parentDirs info.name.length info.name, ∃ f ∈ folders, f.name = dir

section Sorter

variable (cfg : Config)

/-- The sorter ends, it has given its sort a comparison that this can work with, and whatever the
sort makes of equal folders, what stays of the list is in the order of the criteria. -/
def SortsFolders (folders : List FolderInfo) (counter : MailCounter) : Prop :=
  (∀ key ∈ counter.keys, ∀ info, getFolderInfo folders key = .ok info → WalkEnds info.name) ∧
    ∃ filled, fillParentFolderMailCounter folders counter = .ok filled ∧
      StrictWeakOn (folderPriorityCmp cfg filled) folders ∧
      ∀ stdSort : ComparisonSort, stdSort.SortsOn →
        ∃ sorted, folderPrioritySorter cfg stdSort counter folders = .ok sorted ∧
          sorted.Perm (removeEmptyDefaultFolder cfg filled folders) ∧
          sorted.Pairwise (Precedes cfg (HoldsMail folders counter))

variable {folders : List FolderInfo} (identified : (folders.map FolderInfo.id).Nodup)

include identified

theorem sortsFolders_iff (counter : MailCounter) :
    SortsFolders cfg folders counter ↔
      (∀ key ∈ counter.keys, ReachesTop folders key) ∧
        CriteriaAgree cfg (HoldsMail folders counter) folders ∧
        BackupBehind cfg (HoldsMail folders counter) folders ∧
        BackupApart cfg (HoldsMail folders counter) folders := by
  have reaches : (∀ key ∈ counter.keys, ReachesTop folders key) ↔
      (∀ key ∈ counter.keys, ∀ info, getFolderInfo folders key = .ok info → WalkEnds info.name) ∧
        ∃ filled, fillParentFolderMailCounter folders counter = .ok filled := by
    rw [fillParentFolderMailCounter_ok_iff, ← forall₂_and]
    refine forall₂_congr fun key _ => ?_
    simp only [ReachesTop, ParentsFound, walkEnds_iff]
    constructor
    · rintro ⟨info, found, absolute, above⟩
      refine ⟨fun info' found' => ?_, info, found, above⟩
      rw [← Except.ok.inj (found.symm.trans found')]
      exact absolute
    · rintro ⟨absolute, info, found, above⟩
      exact ⟨info, found, absolute info found, above⟩
  rw [SortsFolders, reaches, and_assoc]
  refine and_congr_right fun _ => ?_
  rw [exists_and_right.symm]
  refine exists_congr fun filled => and_congr_right fun done => ?_
  -- the comparison sees the folders that hold mail
  have holds (f : FolderInfo) (member : f ∈ folders) :=
    mem_keys_fill identified counter filled done f member
  have spec (a : FolderInfo) (memberA : a ∈ folders) (b : FolderInfo) (memberB : b ∈ folders) :
      folderPriorityCmp cfg filled a b = true ↔
        a.id ≠ cfg.nsimBackupFolderId ∧ Criterion (HoldsMail folders counter) a b := by
    rw [folderPriorityCmp_iff, Criterion, Criterion, holds a memberA, holds b memberB]
  let stays (f : FolderInfo) : Bool := !(f.id ∈ defaultIdSet cfg && filled.count f.id = 0)
  have staysSpec (f : FolderInfo) (member : f ∈ folders) :
      stays f = true ↔ Stays cfg (HoldsMail folders counter) f := by
    rw [Stays, ← holds f member, imp_iff_not_or]
    simp [stays, MailCounter.count]
  have result (stdSort : ComparisonSort) : folderPrioritySorter cfg stdSort counter folders =
      .ok ((stdSort.sort (folderPriorityCmp cfg filled) folders).filter stays) := by
    rw [folderPrioritySorter, done]
    rfl
  have weakIff := strictWeakOn_criteria_iff identified (folderPriorityCmp cfg filled) spec
  rw [weakIff, and_assoc]
  refine and_congr_right fun agree => and_congr_right fun behind => ?_
  have weak := weakIff.mpr ⟨agree, behind⟩
  constructor
  · intro ordered
    by_contra notApart
    obtain ⟨stdSort, sortsOn, unordered⟩ :=
      exists_unordered identified agree behind notApart _ weak spec stays staysSpec
    obtain ⟨sorted, sorting, -, order⟩ := ordered stdSort sortsOn
    rw [Except.ok.inj ((result stdSort).symm.trans sorting)] at unordered
    exact unordered order
  · intro apart stdSort sortsOn
    have perm := stdSort.perm (folderPriorityCmp cfg filled) folders
    exact ⟨_, result stdSort, perm.filter stays,
      precedes_of_sorted identified agree apart _ spec stays staysSpec _ perm
      (sortsOn _ folders weak)⟩

/-- The comparison is a strict weak order just when its criteria agree, and the sorter puts the
folders into the order of the criteria when, besides, the backup folder cannot come before a folder
that stays. -/
theorem folderPrioritySorter_iff :
    (∀ counter, StrictWeakOn (folderPriorityCmp cfg counter) folders ↔
        CriteriaAgree cfg (fun f => f.id ∈ MailCounter.keys counter) folders ∧
          BackupBehind cfg (fun f => f.id ∈ MailCounter.keys counter) folders) ∧
      ∀ counter, SortsFolders cfg folders counter ↔
        (∀ key ∈ MailCounter.keys counter, ReachesTop folders key) ∧
          CriteriaAgree cfg (HoldsMail folders counter) folders ∧
          BackupBehind cfg (HoldsMail folders counter) folders ∧
          BackupApart cfg (HoldsMail folders counter) folders :=
  ⟨fun counter =>
    strictWeakOn_criteria_iff identified _ fun a _ b _ => folderPriorityCmp_iff cfg counter a b,
    sortsFolders_iff cfg identified⟩

end Sorter

/-- The default folders, and a backup folder with a large id. -/
def Config.lateBackup : Config := ⟨ascii "2,4,5,6", 257, 1000000, ascii "Backup", 0, 0⟩

/-- Mail in the outer one of two folders. -/
theorem folderPrioritySorter_outer : SortsFolders .lateBackup twoFolders [(257, 1)] := by
  have other (b : FolderInfo) (member : b ∈ twoFolders) : b.id ≠ 1000000 :=
    (by decide : ∀ b ∈ twoFolders, b.id ≠ 1000000) b member
  refine ((folderPrioritySorter_iff .lateBackup (by decide)).2 _).mpr
    ⟨fun key member => ?_, ?_, ?_, ?_⟩
  · obtain rfl : key = 257 := by simpa [MailCounter.keys] using member
    exact ⟨⟨ascii "/a", [], 257⟩, rfl, rfl, by decide⟩
  · intro a memberA b memberB _ _ less
    rcases List.mem_pair.mp memberA with rfl | rfl <;>
      rcases List.mem_pair.mp memberB with rfl | rfl
    · exact absurd less (by decide)
    · exact ⟨fun _ => .inl (by decide), by decide⟩
    · exact absurd less (by decide)
    · exact absurd less (by decide)
  · exact fun _ _ b memberB _ backup => absurd backup (other b memberB)
  · exact fun _ _ b memberB _ backup => absurd backup (other b memberB)

/-- A subfolder with a smaller id than a folder at the top: each comes before the other. -/
def crossedFolders : List FolderInfo :=
  [⟨ascii "/a", [], 257⟩, ⟨ascii "/a/b", [], 258⟩, ⟨ascii "/c", [], 259⟩]

theorem folderPrioritySorter_crossed :
    ¬ (StrictWeakOn (folderPriorityCmp .lateBackup []) crossedFolders ∧
      SortsFolders .lateBackup crossedFolders []) := by
  rintro ⟨weak, -⟩
  exact absurd (weak.asymm ⟨ascii "/a/b", [], 258⟩ (by decide) ⟨ascii "/c", [], 259⟩ (by decide)
    (by decide))
    (by decide)

end Zn
