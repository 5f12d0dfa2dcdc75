import MyStudy.Zn.FolderPaths

/-!
# The folder for sent mails

`zn_folder_name_changer` gives the folder `/Sent` and those below it the name another system has for
it. An account may have a folder of that name already.
-/
namespace Zn

abbrev sent : Bytes := ascii "/Sent"

abbrev sentMessages : Bytes := ascii "/Sent Messages"

/-- `/Sent`, or below it. -/
def OfSent (name : Bytes) : Prop := ∃ rest, Deeper rest ∧ name = sent ++ rest

theorem changeName_sent (rest : Bytes) (deeper : Deeper rest) :
    changeName (sent ++ rest) = sentMessages ++ rest := by
  cases rest with
  | nil => decide
  | cons c rest =>
    obtain rfl : c = slash := by simpa [Deeper] using deeper
    have other : sent ++ slash :: rest ≠ ascii "/Sent" := fun same => by
      simpa [ascii] using congrArg List.length same
    have below : (sent ++ slash :: rest).take 6 = ascii "/Sent/" := rfl
    simp only [changeName, if_neg other, if_pos below]
    rfl

theorem changeName_other (name : Bytes) (other : ¬ OfSent name) : changeName name = name := by
  have root : name ≠ ascii "/Sent" := fun same => other ⟨[], .inl rfl, same⟩
  have below : name.take 6 ≠ ascii "/Sent/" := by
    intro first
    refine other ⟨slash :: name.drop 6, deeper_cons _, ?_⟩
    calc name = name.take 6 ++ name.drop 6 := (List.take_append_drop 6 name).symm
      _ = ascii "/Sent/" ++ name.drop 6 := by rw [first]
      _ = sent ++ slash :: name.drop 6 := rfl
  simp only [changeName, if_neg root, if_neg below]

/-- The new name is not one that is changed. -/
theorem not_ofSent_sentMessages (rest : Bytes) : ¬ OfSent (sentMessages ++ rest) := by
  rintro ⟨rest', deeper, same⟩
  have next := congrArg (fun name => name[5]?) same
  rcases deeper with rfl | first
  · cases next
  · obtain ⟨tail, rfl⟩ := List.head?_eq_some_iff.mp first
    cases next

theorem changeName_idempotent (name : Bytes) : changeName (changeName name) = changeName name := by
  by_cases changed : OfSent name
  · obtain ⟨rest, deeper, rfl⟩ := changed
    rw [changeName_sent rest deeper, changeName_other _ (not_ofSent_sentMessages rest)]
  · rw [changeName_other name changed, changeName_other name changed]

/-- The new name of the directory is the directory of the new name. -/
theorem dirname_changeName (name : Bytes) :
    dirname (changeName name) = changeName (dirname name) := by
  by_cases changed : OfSent name
  · obtain ⟨rest, deeper, rfl⟩ := changed
    rw [changeName_sent rest deeper]
    by_cases none_ : rest = []
    · rw [none_]
      decide
    · obtain ⟨old, deeper', -⟩ := dirname_deeper sent rest none_ deeper
      rw [old, changeName_sent _ deeper', (dirname_deeper sentMessages rest none_ deeper).1]
  · rw [changeName_other name changed, changeName_other]
    rintro ⟨rest, deeper, dir⟩
    by_cases slashed : slash ∈ name
    · obtain ⟨base, whole, -⟩ := exists_base name slashed
      exact changed ⟨rest ++ slash :: base, deeper.append base,
        by rw [whole, dir, List.append_assoc]⟩
    · rw [dirname, findLastOf_eq_none slash name slashed] at dir
      cases dir

/-- Two names become the same only at the same place below the old name and below the new one. -/
theorem changeName_eq_iff (m n : Bytes) :
    changeName m = changeName n ↔ m = n ∨ ∃ rest, Deeper rest ∧
      ((m = sent ++ rest ∧ n = sentMessages ++ rest) ∨
      (m = sentMessages ++ rest ∧ n = sent ++ rest)) := by
  have fixed (rest : Bytes) : changeName (sentMessages ++ rest) = sentMessages ++ rest :=
    changeName_other _ (not_ofSent_sentMessages rest)
  constructor
  · intro same
    -- only names below the old folder are changed, and only by their front
    by_cases ofM : OfSent m <;> by_cases ofN : OfSent n
    · obtain ⟨rest, deeper, rfl⟩ := ofM
      obtain ⟨rest', deeper', rfl⟩ := ofN
      rw [changeName_sent rest deeper, changeName_sent rest' deeper'] at same
      exact .inl (congrArg (sent ++ ·) (List.append_cancel_left same))
    · obtain ⟨rest, deeper, rfl⟩ := ofM
      rw [changeName_sent rest deeper, changeName_other n ofN] at same
      exact .inr ⟨rest, deeper, .inl ⟨rfl, same.symm⟩⟩
    · obtain ⟨rest, deeper, rfl⟩ := ofN
      rw [changeName_sent rest deeper, changeName_other m ofM] at same
      exact .inr ⟨rest, deeper, .inr ⟨same, rfl⟩⟩
    · rw [changeName_other m ofM, changeName_other n ofN] at same
      exact .inl same
  · rintro (rfl | ⟨rest, deeper, ⟨rfl, rfl⟩ | ⟨rfl, rfl⟩⟩)
    · rfl
    · rw [changeName_sent rest deeper, fixed]
    · rw [changeName_sent rest deeper, fixed]

/-! ### Lists -/

/-- Both the old name and the new one are in use. -/
def BothNames (folders : List FolderInfo) : Prop :=
  (∃ f ∈ folders, f.name = sent) ∧ ∃ f ∈ folders, f.name = sentMessages

theorem names_folderNameChanger (folders : List FolderInfo) :
    (folderNameChanger folders).map FolderInfo.name =
      (folders.map FolderInfo.name).map changeName := by
  rw [folderNameChanger, List.map_map, List.map_map]
  rfl

theorem folderNameChanger_idempotent (folders : List FolderInfo) :
    folderNameChanger (folderNameChanger folders) = folderNameChanger folders := by
  rw [folderNameChanger, folderNameChanger, List.map_map]
  refine List.map_congr_left fun f _ => ?_
  simp only [Function.comp_apply, changeName_idempotent]

/-- The directories are there under their new names. -/
theorem folderNameChanger_parent (folders : List FolderInfo) (tree : PathTree folders) :
    ∀ f ∈ folderNameChanger folders, dirname f.name ≠ [] →
      ∃ g ∈ folderNameChanger folders, g.name = dirname f.name := by
  intro f member some_
  obtain ⟨f, old, rfl⟩ := List.mem_map.mp member
  rw [dirname_changeName] at some_ ⊢
  have inner : dirname f.name ≠ [] := by
    intro none_
    rw [none_] at some_
    exact some_ (by decide)
  obtain ⟨g, member', named⟩ := tree.parent f old inner
  exact ⟨_, List.mem_map_of_mem member', congrArg changeName named⟩

theorem folderNameChanger_distinct_iff (folders : List FolderInfo) (tree : PathTree folders) :
    ((folderNameChanger folders).map FolderInfo.name).Nodup ↔ ¬ BothNames folders := by
  rw [names_folderNameChanger, List.nodup_map_iff_inj_on tree.distinct]
  constructor
  · rintro injective ⟨⟨f, memberF, namedF⟩, g, memberG, namedG⟩
    have same := injective f.name (List.mem_map_of_mem memberF) g.name (List.mem_map_of_mem memberG)
      (by rw [namedF, namedG]; decide)
    rw [namedF, namedG] at same
    exact absurd same (by decide)
  · intro apart m memberM n memberN same
    have named (name : Bytes) (member : name ∈ folders.map FolderInfo.name) :
        ∃ f ∈ folders, f.name = name := List.mem_map.mp member
    -- a clash further down is one of the two folders above it
    rcases (changeName_eq_iff m n).mp same with rfl | ⟨rest, deeper, ⟨rfl, rfl⟩ | ⟨rfl, rfl⟩⟩
    · rfl
    · exact absurd ⟨tree.above sent rest (by decide) deeper (named _ memberM),
        tree.above sentMessages rest (by decide) deeper (named _ memberN)⟩ apart
    · exact absurd ⟨tree.above sent rest (by decide) deeper (named _ memberN),
        tree.above sentMessages rest (by decide) deeper (named _ memberM)⟩ apart

/-- The paths are as good as before unless the account has both folders. -/
theorem folderNameChanger_tree_iff (folders : List FolderInfo) (tree : PathTree folders) :
    (PathTree (folderNameChanger folders) ∧
      folderNameChanger (folderNameChanger folders) = folderNameChanger folders) ↔
      ¬ ((∃ f ∈ folders, f.name = ascii "/Sent") ∧ ∃ f ∈ folders,
      f.name = ascii "/Sent Messages") := by
  rw [← BothNames, ← folderNameChanger_distinct_iff folders tree]
  constructor
  · exact fun both => both.1.distinct
  · exact fun distinct =>
      ⟨⟨distinct, folderNameChanger_parent folders tree⟩, folderNameChanger_idempotent folders⟩

/-- A subfolder for each year. -/
theorem folderNameChanger_tree_years :
    PathTree (folderNameChanger [⟨ascii "/Sent", [], 5⟩, ⟨ascii "/Sent/2013", [], 300⟩]) ∧
      folderNameChanger (folderNameChanger
      [⟨ascii "/Sent", [], 5⟩, ⟨ascii "/Sent/2013", [], 300⟩]) =
        folderNameChanger [⟨ascii "/Sent", [], 5⟩, ⟨ascii "/Sent/2013", [], 300⟩] :=
  (folderNameChanger_tree_iff _ ⟨by decide, by decide⟩).mpr (by decide)

/-- The folder of sent mails and one the user has called `Sent Messages` become one path. -/
theorem folderNameChanger_clash :
    PathTree [⟨ascii "/Sent", [], 5⟩, ⟨ascii "/Sent Messages", [], 300⟩] ∧
      ¬ (PathTree (folderNameChanger [⟨ascii "/Sent", [], 5⟩, ⟨ascii "/Sent Messages", [], 300⟩]) ∧
        folderNameChanger (folderNameChanger
        [⟨ascii "/Sent", [], 5⟩, ⟨ascii "/Sent Messages", [], 300⟩]) =
          folderNameChanger [⟨ascii "/Sent", [], 5⟩, ⟨ascii "/Sent Messages", [], 300⟩]) :=
  ⟨⟨by decide, by decide⟩, fun both => absurd both.1.distinct (by decide)⟩

end Zn
