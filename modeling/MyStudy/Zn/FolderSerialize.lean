import MyStudy.Zn.FolderInfo
import MyStudy.Zn.SerializedLines

/-!
# Folder lists as text

`zn_folder::serialize` writes id, name and utf7name of each folder; `zn_folder::deserialize` reads
the id and the name back.
-/
namespace Zn

/-- How long the line of a folder is, without its end. -/
def FolderInfo.lineLength (f : FolderInfo) : Nat :=
  (toStringInt f.id).length + f.name.length + f.utf7name.length + 2

def FolderInfo.serialize (f : FolderInfo) : Bytes :=
  toStringInt f.id ++ [comma] ++ f.name ++ [comma] ++ f.utf7name

/-- `zn_folder_info::deserialize` of a new entry, `none` for an access out of range. -/
def FolderInfo.deserialize (uninit : Int) (data : Bytes) : Option FolderInfo := do
  let v := split data comma
  let id ← v[0]?
  let name ← v[1]?
  some ⟨name, [], fromStringInt uninit id⟩

def folderSerialize (folders : List FolderInfo) : Bytes :=
  serializeEntries FolderInfo.serialize folders

def folderDeserialize (uninit : Int) (data : Bytes) : Option (List FolderInfo) :=
  deserializeEntries (FolderInfo.deserialize uninit) data

/-- The folder that reading gives back: no utf7name, and neither separator nor NUL in the name. -/
structure FolderInfo.Plain (f : FolderInfo) : Prop where
  utf7name : f.utf7name = []
  comma : comma ∉ f.name
  nul : 0 ∉ f.name

theorem FolderInfo.deserialize_plain (uninit : Int) (text : Bytes) (f : FolderInfo)
    (clean : 0 ∉ text) (read : FolderInfo.deserialize uninit text = some f) : f.Plain := by
  simp only [deserialize, Option.bind_eq_bind, Option.bind_eq_some_iff, Option.some_inj] at read
  obtain ⟨id, _, name, second, rfl⟩ := read
  have among : name ∈ split text Zn.comma := List.mem_of_getElem? second
  exact ⟨rfl, mem_split_clean text name _ among,
    fun zero => clean (mem_split_chars text name _ 0 among zero).1⟩

/-! ### One line -/

theorem FolderInfo.deserialize_name (uninit id : Int) (name : Bytes) (range : IsInt id)
    (clean : comma ∉ name) (some_ : name ≠ []) :
    FolderInfo.deserialize uninit (toStringInt id ++ comma :: name) = some ⟨name, [], id⟩ := by
  have pieces : split (toStringInt id ++ comma :: name) comma = [toStringInt id, name] := by
    have cut := split_intercalate [toStringInt id, name] comma (by simp)
      (by simpa [clean] using notMem_toStringInt id comma (by decide) (by decide))
    simpa [List.intercalate, some_] using cut
  simp [deserialize, pieces, fromStringInt_toStringInt uninit id range]

theorem FolderInfo.deserialize_line (uninit id : Int) (name : Bytes) (range : IsInt id)
    (clean : comma ∉ name) :
    FolderInfo.deserialize uninit (toStringInt id ++ comma :: (name ++ [comma])) =
      some ⟨name, [], id⟩ := by
  have pieces : split (toStringInt id ++ comma :: (name ++ [comma])) comma =
      [toStringInt id, name] := by
    have cut := split_intercalate [toStringInt id, name, []] comma (by simp)
      (by simpa [clean] using notMem_toStringInt id comma (by decide) (by decide))
    simpa [List.intercalate] using cut
  simp [deserialize, pieces, fromStringInt_toStringInt uninit id range]

namespace FolderInfo

theorem serialize_begins (f : FolderInfo) : ∃ c rest, f.serialize = c :: rest ∧ c ≠ 0 := by
  obtain ⟨c, rest, text⟩ := List.exists_cons_of_ne_nil (toStringInt_ne_nil f.id)
  refine ⟨c, rest ++ [Zn.comma] ++ f.name ++ [Zn.comma] ++ f.utf7name,
    by simp [serialize, text], ?_⟩
  rintro rfl
  exact notMem_toStringInt f.id 0 (by decide) (by decide) (by rw [text]; simp)

theorem notMem_serialize (f : FolderInfo) (c : UInt8) (name : c ∉ f.name)
    (utf7name : c ∉ f.utf7name) (other : c ≠ '-'.toUInt8) (plain : isDigit c = false)
    (apart : c ≠ Zn.comma) :
    c ∉ f.serialize := by
  simp [serialize, name, utf7name, apart, notMem_toStringInt f.id c other plain]

theorem serialize_eq (f : FolderInfo) (plain : f.Plain) :
    f.serialize = toStringInt f.id ++ Zn.comma :: (f.name ++ [Zn.comma]) := by
  simp [serialize, plain.utf7name]

theorem length_serialize (f : FolderInfo) : f.serialize.length = f.lineLength := by
  simp only [serialize, lineLength, List.length_append, List.length_cons, List.length_nil]
  omega

theorem nul_notMem_serialize (f : FolderInfo) (plain : f.Plain) : 0 ∉ f.serialize :=
  f.notMem_serialize 0 plain.nul (by simp [plain.utf7name]) (by decide) (by decide) (by decide)

/-- A line that fits is read back just when the folder is plain. -/
theorem deserialize_fits_iff (uninit : Int) (f : FolderInfo) (range : IsInt f.id) :
    deserialize uninit (cstr f.serialize) = some f ↔ f.Plain := by
  constructor
  · exact deserialize_plain uninit _ f (nul_notMem_cstr _)
  · intro plain
    rw [cstr_clean _ (f.nul_notMem_serialize plain), f.serialize_eq plain,
      deserialize_line uninit f.id f.name range plain.comma, ← plain.utf7name]

/-- Of a line that does not fit, the folder is read back just when only the last comma is cut
off. -/
theorem deserialize_cut_iff (uninit : Int) (f : FolderInfo) (range : IsInt f.id)
    (long : serializeBufSize ≤ f.lineLength) :
    deserialize uninit (cstr (f.serialize.take (serializeBufSize - 1))) = some f ↔
      f.Plain ∧ f.lineLength ≤ serializeBufSize := by
  have shortId := length_toStringInt f.id range
  rw [serializeBufSize, lineLength] at long
  rw [serializeBufSize, lineLength]
  -- what is read of a plain folder: its name, cut
  have read (plain : f.Plain) : deserialize uninit (cstr (f.serialize.take (512 - 1))) =
      some ⟨f.name.take (510 - (toStringInt f.id).length), [], f.id⟩ := by
    have clean : 0 ∉ f.serialize.take (512 - 1) := fun zero =>
      f.nul_notMem_serialize plain (List.mem_of_mem_take zero)
    have unnamed : f.utf7name.length = 0 := by rw [plain.utf7name, List.length_nil]
    have front : f.serialize.take (512 - 1) =
        toStringInt f.id ++ Zn.comma :: f.name.take (510 - (toStringInt f.id).length) := by
      rw [f.serialize_eq plain, List.take_append, List.take_of_length_le (by omega),
        show 512 - 1 - (toStringInt f.id).length = (510 - (toStringInt f.id).length) + 1 by omega,
        List.take_succ_cons, List.take_append_of_le_length (by omega)]
    rw [cstr_clean _ clean, front]
    apply deserialize_name uninit f.id _ range
      (fun among => plain.comma (List.mem_of_mem_take among))
    rw [← List.length_pos_iff, List.length_take]
    omega
  constructor
  · intro same
    have plain := deserialize_plain uninit _ f (nul_notMem_cstr _) same
    have unnamed : f.utf7name.length = 0 := by rw [plain.utf7name, List.length_nil]
    rw [read plain] at same
    -- the cut has to fall behind the name
    have whole : f.name.take (510 - (toStringInt f.id).length) = f.name :=
      congrArg FolderInfo.name (Option.some.inj same)
    rw [List.take_eq_self_iff] at whole
    exact ⟨plain, by omega⟩
  · rintro ⟨plain, fits⟩
    have unnamed : f.utf7name.length = 0 := by rw [plain.utf7name, List.length_nil]
    rw [read plain, List.take_of_length_le (by omega), ← plain.utf7name]

end FolderInfo

/-! ### The list -/

/-- The lists that reading gives back: plain folders, and lines that fit into the buffer. Of the
last line the comma at the end need not fit. -/
structure Restorable (folders : List FolderInfo) : Prop where
  plain : ∀ f ∈ folders, f.Plain
  short : ∀ f ∈ folders.dropLast, f.lineLength < serializeBufSize
  last : ∀ f ∈ folders.getLast?, f.lineLength ≤ serializeBufSize

theorem restorable_cons (f : FolderInfo) (folders : List FolderInfo) :
    Restorable (f :: folders) ↔
      f.Plain ∧ Restorable folders ∧
        (f.lineLength < serializeBufSize ∨
          folders = [] ∧ f.lineLength ≤ serializeBufSize) := by
  -- of the last line the comma need not fit
  cases folders with
  | nil =>
    constructor
    · rintro ⟨plain, _, last⟩
      exact ⟨plain f (by simp), ⟨by simp, by simp, by simp⟩, .inr ⟨rfl, last f (by simp)⟩⟩
    · rintro ⟨plain, _, fits | ⟨_, fits⟩⟩
      · exact ⟨by simpa using plain, by simp, by simpa using fits.le⟩
      · exact ⟨by simpa using plain, by simp, by simpa using fits⟩
  | cons g folders =>
    constructor
    · rintro ⟨plain, short, last⟩
      refine ⟨plain f (by simp), ⟨fun h member => plain h (by simp [member]),
        fun h member => short h ?_, fun h member => last h (by simpa using member)⟩,
        .inl (short f (by simp))⟩
      rw [List.dropLast_cons_cons]
      exact List.mem_cons_of_mem f member
    · rintro ⟨here, ⟨plain, short, last⟩, fits | ⟨none_, _⟩⟩
      · refine ⟨?_, ?_, fun h member => last h (by simpa using member)⟩
        · intro h member
          rcases List.mem_cons.mp member with rfl | later
          · exact here
          · exact plain h later
        · intro h member
          rw [List.dropLast_cons_cons] at member
          rcases List.mem_cons.mp member with rfl | later
          · exact fits
          · exact short h later
      · cases none_

theorem restorable_nil : Restorable [] := ⟨by simp, by simp, by simp⟩

theorem restorable_iff (folders : List FolderInfo) :
    LinesRead FolderInfo.serialize FolderInfo.Plain
      (fun f => f.Plain ∧ f.lineLength ≤ serializeBufSize) folders ↔ Restorable folders := by
  induction folders with
  | nil => exact iff_of_true trivial restorable_nil
  | cons f folders ih =>
    rw [LinesRead, restorable_cons, ih, f.length_serialize]
    constructor
    · rintro (⟨fits, plain, later⟩ | ⟨_, ⟨plain, fits⟩, rfl⟩)
      · exact ⟨plain, later, .inl fits⟩
      · exact ⟨plain, restorable_nil, .inr ⟨rfl, fits⟩⟩
    · rintro ⟨plain, later, fits⟩
      by_cases short : f.lineLength < serializeBufSize
      · exact .inl ⟨short, plain, later⟩
      · obtain ⟨rfl, within⟩ := fits.resolve_left short
        exact .inr ⟨Nat.le_of_not_lt short, ⟨plain, within⟩, rfl⟩

/-- Among lists without utf7names, the restorable ones come back. -/
theorem folderDeserialize_iff_of_utf7name (uninit : Int) (folders : List FolderInfo)
    (names : ∀ f ∈ folders, newline ∉ f.name ∧ IsInt f.id ∧ f.utf7name = []) :
    folderDeserialize uninit (folderSerialize folders) = some folders ↔ Restorable folders := by
  have lines := deserializeEntries_iff FolderInfo.serialize (FolderInfo.deserialize uninit) id
    FolderInfo.Plain (fun f => f.Plain ∧ f.lineLength ≤ serializeBufSize) folders
    (by
      intro f member
      obtain ⟨name, _, utf7name⟩ := names f member
      exact f.notMem_serialize newline name (by simp [utf7name]) (by decide) (by decide)
        (by decide))
    (fun f _ => f.serialize_begins)
    (by
      intro f member _
      simpa using f.deserialize_fits_iff uninit (names f member).2.1)
    (by
      intro f member long
      rw [f.length_serialize] at long
      simpa using f.deserialize_cut_iff uninit (names f member).2.1 long)
  simp only [List.map_id, Option.map_id_fun', id] at lines
  rw [folderDeserialize, folderSerialize, ← restorable_iff, ← lines]

/-- A folder list comes back from its text just when it is restorable. -/
theorem folderDeserialize_iff (uninit : Int) (folders : List FolderInfo)
    (names : ∀ f ∈ folders, newline ∉ f.name) (ids : ∀ f ∈ folders, IsInt f.id) :
    folderDeserialize uninit (folderSerialize folders) = some folders ↔ Restorable folders := by
  have plainly (plain : ∀ f ∈ folders, f.Plain) :=
    folderDeserialize_iff_of_utf7name uninit folders
      fun f member => ⟨names f member, ids f member, (plain f member).utf7name⟩
  constructor
  · intro same
    -- whatever is read is plain
    have plain : ∀ f ∈ folders, f.Plain := by
      intro f member
      obtain ⟨text, clean, read⟩ := mem_deserializeEntries _ _ folders f same member
      exact f.deserialize_plain uninit text clean read
    exact (plainly plain).mp same
  · intro restorable
    exact (plainly restorable.plain).mpr restorable

theorem folderDeserialize_inbox :
    folderDeserialize 0 (folderSerialize [⟨ascii "/Inbox", [], 2⟩, ⟨ascii "/Sent", [], 5⟩]) =
        some [⟨ascii "/Inbox", [], 2⟩, ⟨ascii "/Sent", [], 5⟩] ↔
      Restorable [⟨ascii "/Inbox", [], 2⟩, ⟨ascii "/Sent", [], 5⟩] :=
  folderDeserialize_iff 0 _ (by decide) (by simp [IsInt])

/-- After the encoder every folder has a utf7name, and that does not come back. -/
theorem utf7name_lost :
    ¬ ∀ (uninit : Int) (folders : List FolderInfo), (∀ f ∈ folders, newline ∉ f.name) →
      (∀ f ∈ folders, IsInt f.id) →
      folderDeserialize uninit (folderSerialize folders) = some folders := by
  intro claim
  have same := claim 0 [⟨ascii "/Inbox", ascii "/Inbox", 2⟩] (by decide) (by simp [IsInt])
  exact absurd same (by decide +kernel)

end Zn
