import MyStudy.Zn.Mailbox
import MyStudy.Zn.SerializedLines

/-!
# Mailboxes as text

`zn_mailbox::serialize` writes id, folder id, read mark, date and file name of each mail;
`zn_mailbox::deserialize` takes what follows the last comma for the file name and cuts the rest at
its commas.
-/
namespace Zn

/-! ### One entry -/

def Metafile.serialize (m : Metafile) : Bytes :=
  toStringInt m.id ++ [comma] ++ toStringInt m.folderId ++ [comma] ++
    (if m.isRead then ascii "read" else ascii "unread") ++ [comma] ++ m.date

/-- `zn_metafile::deserialize`, `none` for an access out of range. -/
def Metafile.deserialize (uninit : Int) (m : Metafile) (data : Bytes) : Option Metafile := do
  let v := split data comma
  let id ← v[0]?
  let folderId ← v[1]?
  let read ← v[2]?
  let date ← v[3]?
  some { m with
    id := fromStringInt uninit id
    folderId := fromStringInt uninit folderId
    isRead := read = ascii "read"
    date := date }

/-- How long the line of a mail is, without its end. -/
def MailboxEntry.lineLength (e : MailboxEntry) : Nat :=
  (toStringInt e.metafile.id).length + (toStringInt e.metafile.folderId).length +
    (if e.metafile.isRead then 4 else 6) + e.metafile.date.length + e.mail.filename.length + 4

def MailboxEntry.serialize (e : MailboxEntry) : Bytes :=
  e.metafile.serialize ++ [comma] ++ e.mail.filename

def MailboxEntry.deserialize (uninit : Int) (e : MailboxEntry) (data : Bytes) :
    Option MailboxEntry :=
  -- without a comma, `npos` makes both parts the whole text
  let (front, back) :=
    match findLastOf comma data with
    | some pos => (data.take pos, data.drop (pos + 1))
    | none => (data, data)
  (e.metafile.deserialize uninit front).map fun m => { e with metafile := m, mail := ⟨back⟩ }

/-! ### The mailbox -/

def mailboxSerialize (entries : List MailboxEntry) : Bytes :=
  serializeEntries MailboxEntry.serialize entries

def mailboxDeserialize (uninit : Int) (data : Bytes) : Option (List MailboxEntry) :=
  deserializeEntries (MailboxEntry.deserialize uninit (.ofMeta .init)) data

/-- What the text holds of an entry. -/
def MailboxEntry.fields (e : MailboxEntry) : Int × Int × Bool × Bytes × Bytes :=
  (e.metafile.id, e.metafile.folderId, e.metafile.isRead, e.metafile.date, e.mail.filename)

/-- Entries whose numbers are those of an `int`, and whose texts have neither a comma nor a
newline. -/
structure MailboxEntry.Separable (e : MailboxEntry) : Prop where
  id : IsInt e.metafile.id
  folderId : IsInt e.metafile.folderId
  dateComma : comma ∉ e.metafile.date
  dateNewline : newline ∉ e.metafile.date
  filenameComma : comma ∉ e.mail.filename
  filenameNewline : newline ∉ e.mail.filename

namespace Metafile

variable (uninit : Int) (m₀ m : Metafile)

/-- The four texts between the commas. -/
theorem split_serialize (date : comma ∉ m.date) :
    split m.serialize comma =
      if m.date = [] then
        [toStringInt m.id, toStringInt m.folderId,
        if m.isRead then ascii "read" else ascii "unread"]
      else
        [toStringInt m.id, toStringInt m.folderId,
        if m.isRead then ascii "read" else ascii "unread",
          m.date] := by
  have number (n : Int) : comma ∉ toStringInt n :=
    notMem_toStringInt n comma (by decide) (by decide)
  have word : comma ∉ (if m.isRead then ascii "read" else ascii "unread") := by
    cases m.isRead <;> decide
  have cut := split_intercalate [toStringInt m.id, toStringInt m.folderId,
    if m.isRead then ascii "read" else ascii "unread", m.date] comma (by simp)
    (by simpa [number, date] using word)
  simpa [List.intercalate, serialize] using cut

/-- Too few commas, and an access is out of range. -/
theorem deserialize_eq_none (data : Bytes) (few : (split data comma).length ≤ 3) :
    deserialize uninit m₀ data = none := by
  have missing : (split data comma)[3]? = none := List.getElem?_eq_none few
  simp [deserialize, missing]

theorem deserialize_serialize (id : IsInt m.id) (folderId : IsInt m.folderId)
    (date : comma ∉ m.date) :
    deserialize uninit m₀ m.serialize =
      if m.date = [] then none else some { m with values := m₀.values } := by
  have pieces := m.split_serialize date
  split
  -- the text ends in its last comma, which opens no piece
  next empty =>
    rw [if_pos empty] at pieces
    exact deserialize_eq_none uninit m₀ _ (by simp [pieces])
  next some_ =>
    rw [if_neg some_] at pieces
    have word : ascii "unread" ≠ ascii "read" := by decide
    simp [deserialize, pieces, word, fromStringInt_toStringInt, id, folderId]

theorem count_comma_serialize (date : comma ∉ m.date) : m.serialize.count comma = 3 := by
  have number (n : Int) : (toStringInt n).count comma = 0 :=
    List.count_eq_zero.mpr (notMem_toStringInt n comma (by decide) (by decide))
  have word : (if m.isRead then ascii "read" else ascii "unread").count comma = 0 := by
    cases m.isRead <;> decide
  simp [serialize, List.count_append, number, word, List.count_eq_zero.mpr date]

end Metafile

namespace MailboxEntry

variable (uninit : Int) (e₀ e : MailboxEntry)

theorem deserialize_comma (front back : Bytes) (plain : comma ∉ back) :
    deserialize uninit e₀ (front ++ comma :: back) =
      (e₀.metafile.deserialize uninit front).map
      fun m => { e₀ with metafile := m, mail := ⟨back⟩ } := by
  simp [deserialize, findLastOf_append comma front back plain]

/-- A text that ends before the comma in front of the file name has not enough pieces. -/
theorem deserialize_short (text : Bytes) (few : text.count comma ≤ 3) :
    deserialize uninit e₀ text = none := by
  by_cases member : comma ∈ text
  -- the comma that is found last takes one of the few away
  · obtain ⟨front, back, rfl, plain⟩ := exists_last comma text member
    have pieces := length_split_le front comma
    rw [List.count_append, List.count_cons_self] at few
    rw [deserialize_comma uninit e₀ front back plain,
      e₀.metafile.deserialize_eq_none uninit front (by omega), Option.map_none]
  · have pieces := length_split_le text comma
    rw [List.count_eq_zero.mpr member] at pieces
    simp only [deserialize, findLastOf_eq_none comma text member]
    rw [e₀.metafile.deserialize_eq_none uninit text (by omega), Option.map_none]

/-- Of the beginnings of its text only the whole text gives the entry back, and only with a date. -/
theorem deserialize_prefix_iff (separable : e.Separable) (text : Bytes)
    (front : text <+: e.serialize) :
    (deserialize uninit e₀ text).map fields = some e.fields ↔
      text = e.serialize ∧ e.metafile.date ≠ [] := by
  rw [serialize, List.append_assoc, List.singleton_append] at front ⊢
  rcases Nat.lt_or_ge e.metafile.serialize.length text.length with long | short
  · obtain ⟨rest, rfl⟩ := List.prefix_of_prefix_length_le (List.prefix_append _ _) front long.le
    rw [List.prefix_append_right_inj] at front
    have some_ : rest ≠ [] := by
      rintro rfl
      simp at long
    obtain ⟨c, back, rfl⟩ := List.exists_cons_of_ne_nil some_
    obtain ⟨rfl, behind⟩ := List.cons_prefix_cons.mp front
    have plain : comma ∉ back := fun member => separable.filenameComma (behind.subset member)
    rw [deserialize_comma uninit e₀ _ back plain, Metafile.deserialize_serialize uninit _ e.metafile
      separable.id separable.folderId separable.dateComma]
    split
    next empty => simp [empty]
    next dated => simp [fields, dated]
  -- the file name and more is missing
  · have within : text <+: e.metafile.serialize :=
      List.prefix_of_prefix_length_le front (List.prefix_append _ _) short
    have few := within.sublist.count_le comma
    rw [e.metafile.count_comma_serialize separable.dateComma] at few
    rw [deserialize_short uninit e₀ text few]
    constructor
    · intro none_
      cases none_
    · rintro ⟨rfl, _⟩
      simp at short

theorem serialize_begins : ∃ c rest, e.serialize = c :: rest ∧ c ≠ 0 := by
  obtain ⟨c, rest, text⟩ := List.exists_cons_of_ne_nil (toStringInt_ne_nil e.metafile.id)
  refine ⟨c, _, by simp only [serialize, Metafile.serialize, text, List.cons_append]; rfl, ?_⟩
  rintro rfl
  exact notMem_toStringInt e.metafile.id 0 (by decide) (by decide) (by rw [text]; simp)

theorem mem_serialize_iff (c : UInt8) (other : c ≠ '-'.toUInt8) (plain : isDigit c = false)
    (apart : c ≠ comma) (words : c ∉ ascii "unread") :
    c ∈ e.serialize ↔ c ∈ e.metafile.date ∨ c ∈ e.mail.filename := by
  have number (n : Int) : c ∉ toStringInt n := notMem_toStringInt n c other plain
  have word : c ∉ (if e.metafile.isRead then ascii "read" else ascii "unread") := by
    cases e.metafile.isRead
    · exact words
    · exact fun member => words (List.mem_of_mem_drop (i := 2) member)
  simp [serialize, Metafile.serialize, number, word, apart]

theorem length_serialize : e.serialize.length = e.lineLength := by
  have word : (if e.metafile.isRead then ascii "read" else ascii "unread").length =
      if e.metafile.isRead then 4 else 6 := by
    cases e.metafile.isRead <;> rfl
  simp only [serialize, Metafile.serialize, lineLength, List.length_append, List.length_cons,
    List.length_nil, word]
  omega

theorem newline_notMem_serialize (separable : e.Separable) : newline ∉ e.serialize := by
  rw [e.mem_serialize_iff newline (by decide) (by decide) (by decide) (by decide), not_or]
  exact ⟨separable.dateNewline, separable.filenameNewline⟩

end MailboxEntry

/-! ### The list -/

/-- The entries that come back: a date, and a line that fits into the buffer and has no NUL. -/
structure MailboxEntry.Restorable (e : MailboxEntry) : Prop where
  dated : e.metafile.date ≠ []
  dateNul : 0 ∉ e.metafile.date
  filenameNul : 0 ∉ e.mail.filename
  short : e.lineLength < serializeBufSize

theorem MailboxEntry.restorable_iff (e : MailboxEntry) :
    e.Restorable ↔
      e.serialize.length < serializeBufSize ∧ 0 ∉ e.serialize ∧ e.metafile.date ≠ [] := by
  rw [e.mem_serialize_iff 0 (by decide) (by decide) (by decide) (by decide), not_or,
    e.length_serialize]
  constructor
  · rintro ⟨dated, date, filename, short⟩
    exact ⟨short, ⟨date, filename⟩, dated⟩
  · rintro ⟨short, ⟨date, filename⟩, dated⟩
    exact ⟨dated, date, filename, short⟩

/-- All that the text holds of a mailbox comes back just when every entry is restorable. -/
theorem mailboxDeserialize_iff (uninit : Int) (entries : List MailboxEntry)
    (separable : ∀ e ∈ entries, e.Separable) :
    (∃ restored, mailboxDeserialize uninit (mailboxSerialize entries) = some restored ∧
        restored.map MailboxEntry.fields = entries.map MailboxEntry.fields) ↔
      ∀ e ∈ entries, e.Restorable := by
  have lines := deserializeEntries_iff MailboxEntry.serialize
    (MailboxEntry.deserialize uninit (.ofMeta .init)) MailboxEntry.fields
    (fun e => 0 ∉ e.serialize ∧ e.metafile.date ≠ []) (fun _ => False) entries
    (fun e member => e.newline_notMem_serialize (separable e member))
    (fun e _ => e.serialize_begins)
    (by
      intro e member _
      rw [MailboxEntry.deserialize_prefix_iff uninit _ e (separable e member) (cstr e.serialize)
        (List.takeWhile_prefix _),
        cstr_eq_self_iff])
    (by
      intro e member long
      have front : cstr (e.serialize.take (serializeBufSize - 1)) <+: e.serialize :=
        (List.takeWhile_prefix _).trans (List.take_prefix _ _)
      rw [MailboxEntry.deserialize_prefix_iff uninit _ e (separable e member) _ front, iff_false]
      rintro ⟨same, _⟩
      -- the buffer ends before the line does
      have shorter :=
        (List.takeWhile_prefix (· != 0) (l := e.serialize.take (serializeBufSize - 1))).length_le
      rw [← cstr, same, List.length_take, serializeBufSize] at shorter
      rw [serializeBufSize] at long
      omega)
  rw [linesRead_uncut] at lines
  rw [mailboxDeserialize, mailboxSerialize, ← Option.map_eq_some_iff, lines]
  apply forall₂_congr
  intro e _
  rw [e.restorable_iff]

/-- The mail 7 of folder 2, read, from the file `/tmp/7`. -/
def mailSeven (date : Bytes) : MailboxEntry := ⟨⟨[], true, date, 7, 2⟩, ⟨ascii "/tmp/7"⟩, true⟩

theorem mailSeven_separable (date : Bytes) (plain : comma ∉ date) (line : newline ∉ date) :
    (mailSeven date).Separable :=
  ⟨by simp [mailSeven, IsInt], by simp [mailSeven, IsInt], plain, line,
    (by decide : comma ∉ ascii "/tmp/7"), (by decide : newline ∉ ascii "/tmp/7")⟩

theorem mailboxDeserialize_dated :
    (∃ restored, mailboxDeserialize 0 (mailboxSerialize [mailSeven (ascii "1362")]) =
      some restored ∧
        restored.map MailboxEntry.fields = [mailSeven (ascii "1362")].map MailboxEntry.fields) ↔
      ∀ e ∈ [mailSeven (ascii "1362")], e.Restorable :=
  mailboxDeserialize_iff 0 _ (by simpa using mailSeven_separable _ (by decide) (by decide))

/-- An empty date is a piece that `split` does not give, and the access to it is out of range. -/
theorem undated_out_of_range :
    ¬ ∀ (uninit : Int) (entries : List MailboxEntry), (∀ e ∈ entries, e.Separable) →
      ∃ restored, mailboxDeserialize uninit (mailboxSerialize entries) = some restored ∧
        restored.map MailboxEntry.fields = entries.map MailboxEntry.fields := by
  intro claim
  obtain ⟨restored, read, _⟩ := claim 0 [mailSeven []]
    (by simpa using mailSeven_separable [] (by decide) (by decide))
  have fails : mailboxDeserialize 0 (mailboxSerialize [mailSeven []]) = none := by decide +kernel
  rw [fails] at read
  cases read

end Zn
