import MyStudy.Lib.LineBuffer
import MyStudy.Zn.Misc

/-!
# Lists as lines

`zn_folder` and `zn_mailbox` write their entries one to a line and read them back through the same
loop: `getline` into a buffer of 512 characters, and an entry for each buffer that holds a text.
-/
namespace Zn

abbrev newline : UInt8 := '\n'.toUInt8

/-- `SERIALIZE_BUF_SIZE` of both classes. -/
def serializeBufSize : Nat := 512

def serializeEntries {α : Type} (serialize : α → Bytes) (entries : List α) : Bytes :=
  entries.flatMap fun entry => serialize entry ++ [newline]

/-- The loop of `deserialize`. `none` is an access out of range. -/
def deserializeEntries {α : Type} (deserialize : Bytes → Option α) (data : Bytes) :
    Option (List α) :=
  let buffers := LineBuffer.getlines newline serializeBufSize (data.length + 1) data
  ((buffers.map cstr).filter (· ≠ [])).mapM deserialize

variable {α : Type} (serialize : α → Bytes) (deserialize : Bytes → Option α)

theorem serializeEntries_cons (entry : α) (entries : List α) :
    serializeEntries serialize (entry :: entries) =
      serialize entry ++ newline :: serializeEntries serialize entries := by
  simp [serializeEntries]

/-- What the loop gets of the lines that were written. -/
theorem deserializeEntries_serializeEntries (entries : List α)
    (clean : ∀ e ∈ entries, newline ∉ serialize e) :
    deserializeEntries deserialize (serializeEntries serialize entries) =
      (((LineBuffer.cut serializeBufSize (entries.map serialize)).map cstr).filter
        (· ≠ [])).mapM deserialize := by
  have lines : serializeEntries serialize entries =
      (entries.map serialize).flatMap (· ++ [newline]) := by
    rw [serializeEntries, List.flatMap_map]
  have enough : (entries.map serialize).length <
      (serializeEntries serialize entries).length + 1 := by
    rw [List.length_map, Nat.lt_succ_iff]
    induction entries with
    | nil => exact Nat.le_refl _
    | cons entry entries ih =>
      have rest := ih (fun e member => clean e (by simp [member])) (by
        rw [serializeEntries, List.flatMap_map])
      simp only [serializeEntries_cons, List.length_append, List.length_cons]
      omega
  simp only [deserializeEntries]
  rw [lines] at enough ⊢
  rw [LineBuffer.getlines_closed newline serializeBufSize (by decide) _ _
    (by simpa using clean) enough]

/-- A line that fits gives its entry and the loop goes on; one that does not is the last. -/
theorem deserializeEntries_cons (entry : α) (entries : List α)
    (clean : ∀ e ∈ entry :: entries, newline ∉ serialize e)
    (begins : ∃ c rest, serialize entry = c :: rest ∧ c ≠ 0) :
    deserializeEntries deserialize (serializeEntries serialize (entry :: entries)) =
      if (serialize entry).length < serializeBufSize then
        (deserialize (cstr (serialize entry))).bind fun e =>
          (deserializeEntries deserialize (serializeEntries serialize entries)).map (e :: ·)
      else (deserialize (cstr ((serialize entry).take (serializeBufSize - 1)))).map ([·]) := by
  obtain ⟨c, rest, text, nonzero⟩ := begins
  have some_ (more : Bytes) : cstr (c :: more) ≠ [] := by simp [cstr, nonzero]
  rw [deserializeEntries_serializeEntries serialize deserialize _ clean, List.map_cons,
    LineBuffer.cut]
  split
  next fits =>
    rw [deserializeEntries_serializeEntries serialize deserialize entries
      fun e member => clean e (by simp [member])]
    rw [List.map_cons, List.filter_cons_of_pos (by simpa [text] using some_ rest), List.mapM_cons]
    cases deserialize (cstr (serialize entry)) with
    | none => rfl
    | some e =>
      simp only [Option.bind_eq_bind, Option.bind_some, Option.pure_def]
      generalize List.mapM deserialize _ = tail
      cases tail <;> rfl
  next long =>
    -- the beginning of the line fills the buffer
    have front : (serialize entry).take (serializeBufSize - 1) = c :: rest.take 510 := by
      rw [text]
      rfl
    rw [List.map_singleton, List.filter_cons_of_pos (by simpa [front] using some_ (rest.take 510)),
      List.filter_nil, List.mapM_cons, List.mapM_nil]
    cases deserialize (cstr ((serialize entry).take (serializeBufSize - 1))) <;> rfl

/-- When the lines come back: each fits and is read whole, and of the last one the end may be cut
off. -/
def LinesRead (Whole Cut : α → Prop) : List α → Prop
  | [] => True
  | entry :: entries =>
    (serialize entry).length < serializeBufSize ∧ Whole entry ∧ LinesRead Whole Cut entries ∨
      serializeBufSize ≤ (serialize entry).length ∧ Cut entry ∧ entries = []

/-- Where no cut line is read, every line has to fit. -/
theorem linesRead_uncut (Whole : α → Prop) (entries : List α) :
    LinesRead serialize Whole (fun _ => False) entries ↔
      ∀ e ∈ entries, (serialize e).length < serializeBufSize ∧ Whole e := by
  induction entries with
  | nil => simp [LinesRead]
  | cons entry entries ih => simp [LinesRead, ih, and_assoc]

/-- What is seen of the entries comes back just when it does so of each line. -/
theorem deserializeEntries_iff {β : Type} (view : α → β) (Whole Cut : α → Prop) (entries : List α)
    (clean : ∀ e ∈ entries, newline ∉ serialize e)
    (begins : ∀ e ∈ entries, ∃ c rest, serialize e = c :: rest ∧ c ≠ 0)
    (whole : ∀ e ∈ entries, (serialize e).length < serializeBufSize →
      ((deserialize (cstr (serialize e))).map view = some (view e) ↔ Whole e))
    (cut : ∀ e ∈ entries, serializeBufSize ≤ (serialize e).length →
      ((deserialize (cstr ((serialize e).take (serializeBufSize - 1)))).map view = some (view e) ↔
        Cut e)) :
    (deserializeEntries deserialize (serializeEntries serialize entries)).map (·.map view) =
        some (entries.map view) ↔ LinesRead serialize Whole Cut entries := by
  induction entries with
  | nil => exact iff_of_true rfl trivial
  | cons entry entries ih =>
    have ih := ih (fun e member => clean e (by simp [member]))
      (fun e member => begins e (by simp [member])) (fun e member => whole e (by simp [member]))
      (fun e member => cut e (by simp [member]))
    rw [deserializeEntries_cons _ _ entry entries clean (begins entry (by simp)), LinesRead, ← ih]
    split
    next fits =>
      rw [← whole entry (by simp) fits]
      simp only [fits, Nat.not_le.mpr fits, true_and, false_and, or_false]
      cases deserialize (cstr (serialize entry)) with
      | none => simp
      | some e =>
        cases deserializeEntries deserialize (serializeEntries serialize entries) with
        | none => simp
        | some rest => simp
    next long =>
      have long : serializeBufSize ≤ (serialize entry).length := Nat.le_of_not_lt long
      -- nothing behind this line is read
      rw [← cut entry (by simp) long]
      simp only [long, Nat.not_lt.mpr long, true_and, false_and, false_or]
      cases deserialize (cstr ((serialize entry).take (serializeBufSize - 1))) with
      | none => simp
      | some e => simp [eq_comm]

/-- Every entry that is read comes from a text without NUL. -/
theorem mem_deserializeEntries (data : Bytes) (entries : List α) (entry : α)
    (read : deserializeEntries deserialize data = some entries) (member : entry ∈ entries) :
    ∃ text, 0 ∉ text ∧ deserialize text = some entry := by
  simp only [deserializeEntries] at read
  have clean : ∀ text ∈ ((LineBuffer.getlines newline serializeBufSize (data.length + 1) data).map
      cstr).filter (· ≠ []), (0 : UInt8) ∉ text := by
    intro text among
    obtain ⟨buffer, _, rfl⟩ := List.mem_map.mp (List.mem_of_mem_filter among)
    exact nul_notMem_cstr buffer
  generalize ((LineBuffer.getlines newline serializeBufSize (data.length + 1) data).map
      cstr).filter (· ≠ []) = texts at read clean
  induction texts generalizing entries with
  | nil =>
    obtain rfl : entries = [] := by simpa [eq_comm] using read
    simp at member
  | cons text texts ih =>
    simp only [List.mapM_cons, Option.bind_eq_bind, Option.bind_eq_some_iff, Option.pure_def,
      Option.some_inj] at read
    obtain ⟨first, here, later, rest, rfl⟩ := read
    rcases List.mem_cons.mp member with rfl | among
    · exact ⟨text, clean text (by simp), here⟩
    · exact ih later among rest fun other member => clean other (by simp [member])

end Zn
