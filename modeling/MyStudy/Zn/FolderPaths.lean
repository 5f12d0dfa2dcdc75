import MyStudy.Zn.FolderInfo

/-!
# Paths of folders

The paths `/a/b/c` of the folders of an account, and what a list of folders holds of the paths above
its own.
-/
namespace Zn

/-! ### A path and its directory -/

/-- A path with a slash is its directory, a slash, and a last name. -/
theorem exists_base (name : Bytes) (slashed : slash ∈ name) :
    ∃ base, name = dirname name ++ slash :: base ∧ slash ∉ base := by
  obtain ⟨front, back, rfl, absent⟩ := exists_last slash name slashed
  exact ⟨back, by rw [dirname_append front back absent], absent⟩

/-- What may stand behind a path: nothing, or a slash and more names. -/
def Deeper (rest : Bytes) : Prop := rest = [] ∨ rest.head? = some slash

theorem deeper_cons (rest : Bytes) : Deeper (slash :: rest) := .inr rfl

theorem Deeper.append {rest : Bytes} (deeper : Deeper rest) (base : Bytes) :
    Deeper (rest ++ slash :: base) := by
  rcases deeper with rfl | first
  · exact deeper_cons base
  · exact .inr (by rw [List.head?_append, first]; rfl)

/-- The directory of a path below another is that one, or below it, too. -/
theorem dirname_deeper (top rest : Bytes) (some_ : rest ≠ []) (deeper : Deeper rest) :
    dirname (top ++ rest) = top ++ dirname rest ∧ Deeper (dirname rest) ∧
      (dirname rest).length < rest.length := by
  have first := deeper.resolve_left some_
  obtain ⟨shorter, still⟩ := dirname_absolute rest first
  obtain ⟨base, whole, absent⟩ := exists_base rest (List.mem_of_head? first)
  refine ⟨?_, ?_, shorter⟩
  · calc dirname (top ++ rest)
        = dirname (top ++ dirname rest ++ slash :: base) := by rw [List.append_assoc, ← whole]
      _ = top ++ dirname rest := dirname_append _ base absent
  · exact (eq_or_ne (dirname rest) []).imp_right still

/-- Every path is listed once, and with it its directory. -/
structure PathTree (folders : List FolderInfo) : Prop where
  distinct : (folders.map FolderInfo.name).Nodup
  parent : ∀ f ∈ folders, dirname f.name ≠ [] → ∃ g ∈ folders, g.name = dirname f.name

/-- All the paths above a listed one are listed. -/
theorem PathTree.above {folders : List FolderInfo} (tree : PathTree folders) (top rest : Bytes)
    (some_ : top ≠ []) (deeper : Deeper rest) (listed : ∃ f ∈ folders, f.name = top ++ rest) :
    ∃ f ∈ folders, f.name = top := by
  induction len : rest.length using Nat.strongRecOn generalizing rest with
  | ind l ih =>
    by_cases none_ : rest = []
    · rw [none_, List.append_nil] at listed
      exact listed
    · obtain ⟨dir, deeper', shorter⟩ := dirname_deeper top rest none_ deeper
      obtain ⟨f, member, named⟩ := listed
      have up :=
        tree.parent f member (by rw [named, dir]; exact List.append_ne_nil_of_left_ne_nil some_ _)
      rw [named, dir] at up
      exact ih _ (len ▸ shorter) (dirname rest) deeper' up rfl

end Zn
