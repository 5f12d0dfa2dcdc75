import MyStudy.Zn.Metafile

/-!
# Records of meta files

What `load_meta` makes of a record `{key:value,...}` and the byte that ends its line. A comma inside
of double quotes is a part of its value.
-/
namespace Zn

abbrev doubleQuote : UInt8 := '"'.toUInt8

abbrev colon : UInt8 := ':'.toUInt8

/-- A text as it stands in a record. -/
def literalText (quoted : Bool) (text : Bytes) : Bytes :=
  if quoted then doubleQuote :: (text ++ [doubleQuote]) else text

/-- A pair of a record. -/
structure MetaPair where
  key : Bytes
  value : Bytes
  keyQuoted : Bool
  valueQuoted : Bool
  key_plain : doubleQuote ∉ key ∧ colon ∉ key ∧ comma ∉ key
  value_plain : doubleQuote ∉ value
  bare_plain : valueQuoted = false → comma ∉ value

namespace MetaPair

def text (p : MetaPair) : Bytes :=
  literalText p.keyQuoted p.key ++ colon :: literalText p.valueQuoted p.value

def entry (p : MetaPair) : Bytes × Bytes := (p.key, p.value)

end MetaPair

def metaRecord (pairs : List MetaPair) (lineEnd : UInt8) : Bytes :=
  '\x7b'.toUInt8 :: ([comma].intercalate (pairs.map MetaPair.text) ++ ['\x7d'.toUInt8, lineEnd])

/-! ### Texts -/

theorem filter_literalText (quoted : Bool) (text : Bytes) (plain : doubleQuote ∉ text) :
    (literalText quoted text).filter (· ≠ doubleQuote) = text := by
  have all : text.filter (· ≠ doubleQuote) = text := by
    rw [List.filter_eq_self]
    intro c member
    simpa using ne_of_mem_of_not_mem member plain
  cases quoted with
  | false => exact all
  | true =>
    rw [literalText, if_pos rfl, List.filter_cons_of_neg (by simp), List.filter_append, all]
    simp

/-- A text without quotes moves the search along. -/
theorem findNonliteralFrom_plain (c : UInt8) (quoteFlag : Bool) (text rest : Bytes)
    (plain : doubleQuote ∉ text) (absent : quoteFlag = false → c ∉ text) :
    findNonliteralFrom c quoteFlag (text ++ rest) =
      (findNonliteralFrom c quoteFlag rest).map (· + text.length) := by
  induction text with
  | nil => simp
  | cons b text ih =>
    rw [List.mem_cons, not_or] at plain
    have other : ¬ (b = c && !quoteFlag) = true := by
      rw [Bool.and_eq_true, decide_eq_true_eq, Bool.not_eq_true']
      rintro ⟨rfl, bare⟩
      exact absent bare (by simp)
    have later := ih plain.2 fun bare member => absent bare (List.mem_cons_of_mem b member)
    rw [List.cons_append, findNonliteralFrom, if_neg (Ne.symm plain.1), if_neg other, later,
      Option.map_map]
    rfl

/-- So does a text between quotes, whatever else is in it. -/
theorem findNonliteralFrom_literal (c : UInt8) (quoted : Bool) (text rest : Bytes)
    (plain : doubleQuote ∉ text) (absent : quoted = false → c ∉ text) :
    findNonliteralFrom c false (literalText quoted text ++ rest) =
      (findNonliteralFrom c false rest).map (· + (literalText quoted text).length) := by
  cases quoted with
  | false => exact findNonliteralFrom_plain c false text rest plain absent
  | true =>
    have whole : literalText true text ++ rest = doubleQuote :: (text ++ doubleQuote :: rest) := by
      simp [literalText]
    have length : (literalText true text).length = text.length + 2 := by simp [literalText]
    -- the flag is set by the first quote, and taken back by the second
    rw [whole, length, findNonliteralFrom, if_pos rfl,
      findNonliteralFrom_plain c _ text _ plain (by simp), findNonliteralFrom, if_pos rfl,
      Bool.not_not, Option.map_map, Option.map_map]
    congr 1
    funext n
    simp only [Function.comp_apply]
    omega

theorem find_comma (p : MetaPair) (rest : Bytes) :
    findNonliteral (p.text ++ comma :: rest) comma = some p.text.length := by
  have whole : p.text ++ comma :: rest = literalText p.keyQuoted p.key ++
      ([colon] ++ (literalText p.valueQuoted p.value ++ comma :: rest)) := by
    simp [MetaPair.text]
  rw [findNonliteral, if_neg (by decide), whole,
    findNonliteralFrom_literal _ _ _ _ p.key_plain.1 fun _ => p.key_plain.2.2,
    findNonliteralFrom_plain _ _ [colon] _ (by decide) (by decide),
    findNonliteralFrom_literal _ _ _ _ p.value_plain p.bare_plain, findNonliteralFrom,
    if_neg (by decide), if_pos (by decide), MetaPair.text]
  simp only [Option.map_some, List.length_append, List.length_cons, List.length_nil]
  congr 1
  omega

/-! ### Pairs -/

namespace Metafile

theorem loadPair_text (m : Metafile) (p : MetaPair) :
    m.loadPair p.text = m.insert p.key p.value := by
  -- the first colon is the one between the two
  have none_ : (literalText p.keyQuoted p.key).findIdx? (· = colon) = none := by
    rw [List.findIdx?_eq_none_iff]
    intro c member
    have among : c ∈ p.key ∨ c = doubleQuote := by
      rw [literalText] at member
      split at member
      · simp only [List.mem_cons, List.mem_append, List.not_mem_nil, or_false] at member
        tauto
      · exact .inl member
    rcases among with inside | rfl
    · simpa using ne_of_mem_of_not_mem inside p.key_plain.2.1
    · decide
  have found : p.text.findIdx? (· = colon) = some (literalText p.keyQuoted p.key).length := by
    rw [MetaPair.text, List.findIdx?_append, none_, List.findIdx?_cons]
    simp
  have value : p.text.drop ((literalText p.keyQuoted p.key).length + 1) =
      literalText p.valueQuoted p.value := by
    rw [MetaPair.text, ← List.drop_drop, List.drop_left, List.drop_one, List.tail_cons]
  have key : p.text.take (literalText p.keyQuoted p.key).length =
      literalText p.keyQuoted p.key := by
    rw [MetaPair.text, List.take_left]
  rw [loadPair, found]
  simp only [key, value]
  rw [filter_literalText _ _ p.key_plain.1, filter_literalText _ _ p.value_plain]

/-- A new key goes to the end. -/
theorem insert_new (m : Metafile) (key value : Bytes) (new : key ∉ m.values.map Prod.fst) :
    m.insert key value = { m with values := m.values ++ [(key, value)] } := by
  have none_ : m.values.lookup key = none := by
    rw [List.lookup_eq_none_iff]
    intro pair member
    rw [bne_iff_ne]
    rintro rfl
    exact new (List.mem_map.mpr ⟨pair, member, rfl⟩)
  rw [insert, none_]
  rfl

/-- The pairs, each with a comma behind it. -/
theorem loadPairs_pairs (pairs : List MetaPair) (m : Metafile) (rounds : Nat)
    (enough : (pairs.flatMap fun p => p.text ++ [comma]).length ≤ rounds)
    (new : (m.values.map Prod.fst ++ pairs.map MetaPair.key).Nodup) :
    loadPairs rounds m (pairs.flatMap fun p => p.text ++ [comma]) =
      { m with values := m.values ++ pairs.map MetaPair.entry } := by
  induction pairs generalizing m rounds with
  | nil => cases rounds <;> simp [loadPairs, findNonliteral, findNonliteralFrom]
  | cons p pairs ih =>
    have whole : ((p :: pairs).flatMap fun p => p.text ++ [comma]) =
        p.text ++ comma :: pairs.flatMap fun p => p.text ++ [comma] := by simp
    rw [whole, List.length_append, List.length_cons] at enough
    obtain ⟨rounds, rfl⟩ := Nat.exists_eq_add_one.mpr (show 0 < rounds by omega)
    have fresh : p.key ∉ m.values.map Prod.fst := by
      rw [List.map_cons, List.nodup_append'] at new
      exact fun member => new.2.2 member List.mem_cons_self
    have rest : (p.text ++ comma :: pairs.flatMap fun p => p.text ++ [comma]).drop
      (p.text.length + 1) =
        pairs.flatMap fun p => p.text ++ [comma] := by
      rw [← List.drop_drop, List.drop_left, List.drop_one, List.tail_cons]
    rw [whole, loadPairs, find_comma]
    simp only [List.take_left, rest]
    rw [loadPair_text, insert_new m _ _ fresh, ih _ _ (by omega) (by simpa using new)]
    simp [MetaPair.entry]

theorem intercalate_comma (texts : List Bytes) (some_ : texts ≠ []) :
    [comma].intercalate texts ++ [comma] = texts.flatMap fun text => text ++ [comma] := by
  induction texts with
  | nil => exact absurd rfl some_
  | cons text texts ih =>
    cases texts with
    | nil => simp
    | cons text' texts =>
      rw [List.intercalate_cons_cons, List.append_assoc, List.append_assoc, ih (by simp)]
      simp

/-- What `load_meta` makes of a record. -/
theorem loadMeta_record (uninit : Int) (pairs : List MetaPair) (lineEnd : UInt8)
    (distinct : (pairs.map MetaPair.key).Nodup) :
    loadMeta uninit .init (metaRecord pairs lineEnd) =
      let m : Metafile := { Metafile.init with values := pairs.map MetaPair.entry }
      some ({ m with
        isRead := m.getValue (ascii "unread") ≠ ascii "0"
        date := m.getValue (ascii "date")
        id := fromStringInt uninit (m.getValue (ascii "id"))
        folderId := fromStringInt uninit (m.getValue (ascii "folder_id")) }, true) := by
  let inner := [comma].intercalate (pairs.map MetaPair.text)
  have length : (metaRecord pairs lineEnd).length = inner.length + 3 := by
    simp [metaRecord, inner]
  have cut : ((metaRecord pairs lineEnd).drop 1).take
      ((metaRecord pairs lineEnd).length - 3) = inner := by
    rw [length, Nat.add_sub_cancel, metaRecord, List.drop_one, List.tail_cons, List.take_left]
  have loaded (rounds : Nat) (enough : (inner ++ [comma]).length ≤ rounds) :
      loadPairs rounds .init (inner ++ [comma]) =
        { Metafile.init with values := pairs.map MetaPair.entry } := by
    cases pairs with
    | nil =>
      -- there is nothing before the only comma
      obtain ⟨rounds, rfl⟩ := Nat.exists_eq_add_one.mpr (show 0 < rounds by simp at enough; omega)
      have nothing : inner ++ [comma] = [comma] := rfl
      rw [nothing, loadPairs]
      cases rounds <;> rfl
    | cons p pairs =>
      have joined : inner ++ [comma] = (p :: pairs).flatMap fun p => p.text ++ [comma] := by
        rw [intercalate_comma _ (by simp), List.flatMap_map]
      rw [joined] at enough ⊢
      exact loadPairs_pairs (p :: pairs) .init rounds enough
        (by simpa [Metafile.init] using distinct)
  rw [loadMeta, if_neg (by rw [length]; omega), if_neg (by rw [length]; omega), cut]
  simp only [loaded _ (Nat.le_refl _)]

end Metafile

/-! ### What a record says -/

/-- A text of an integer. -/
inductive IntegerText : Bytes → Int → Prop
  | plain (digits : Bytes) (some_ : digits ≠ []) (all : ∀ d ∈ digits, isDigit d = true) :
    IntegerText digits (numeral 10 digits)
  | minus (digits : Bytes) (some_ : digits ≠ []) (all : ∀ d ∈ digits, isDigit d = true) :
    IntegerText ('-'.toUInt8 :: digits) (-numeral 10 digits)

theorem fromStringInt_integerText (uninit n : Int) (text : Bytes) (integer : IntegerText text n)
    (range : IsInt n) : fromStringInt uninit text = n := by
  obtain ⟨low, high⟩ := range
  cases integer with
  | plain digits some_ all =>
    have whole : text.takeWhile isDigit = text := List.takeWhile_eq_self_iff.mpr all
    obtain ⟨d, rest, rfl⟩ := List.exists_cons_of_ne_nil some_
    obtain ⟨_, blank, minus, plus⟩ := digit_plain d (all d List.mem_cons_self)
    have unpadded : (d :: rest).dropWhile isBlank = d :: rest :=
      List.dropWhile_cons_of_neg (by rw [isBlank, blank]; simp)
    rw [fromStringInt_eq uninit _ (by rw [unpadded]; simp)]
    simp only [leadingInt, unpadded, List.head?_cons, Option.some_inj, minus, plus, decide_false,
      Bool.or_self, Bool.false_eq_true, if_false, whole]
    omega
  | minus digits some_ all =>
    have whole : digits.takeWhile isDigit = digits := List.takeWhile_eq_self_iff.mpr all
    have unpadded : ('-'.toUInt8 :: digits).dropWhile isBlank = '-'.toUInt8 :: digits :=
      List.dropWhile_cons_of_neg (by decide)
    rw [fromStringInt_eq uninit _ (by rw [unpadded]; simp)]
    simp only [leadingInt, unpadded, List.head?_cons, decide_true, Bool.true_or, if_true,
      List.drop_one, List.tail_cons, whole]
    omega

/-- The value a record has for a key. -/
def recordValue (pairs : List MetaPair) (key : Bytes) : Option Bytes :=
  (pairs.map MetaPair.entry).lookup key

namespace Metafile

/-- The meta file is what the record says: a mail is read when its unread count is 0. -/
structure OfRecord (pairs : List MetaPair) (m : Metafile) : Prop where
  values : m.values = pairs.map MetaPair.entry
  id : ∀ text n, recordValue pairs (ascii "id") = some text → IntegerText text n →
    IsInt n → m.id = n
  folderId : ∀ text n, recordValue pairs (ascii "folder_id") = some text →
    IntegerText text n → IsInt n →
    m.folderId = n
  date : m.date = (recordValue pairs (ascii "date")).getD []
  isRead : m.isRead = true ↔ ∃ text, recordValue pairs (ascii "unread") = some text ∧
    IntegerText text 0

/-- The fields of the meta file from the values of the record. -/
theorem loadMeta_fields (uninit : Int) (pairs : List MetaPair) (lineEnd : UInt8)
    (distinct : (pairs.map MetaPair.key).Nodup) :
    ∃ m, loadMeta uninit .init (metaRecord pairs lineEnd) = some (m, true) ∧
      m.values = pairs.map MetaPair.entry ∧
      (m.isRead = true ↔ (recordValue pairs (ascii "unread")).getD [] ≠ ascii "0") ∧
      m.date = (recordValue pairs (ascii "date")).getD [] ∧
      m.id = fromStringInt uninit ((recordValue pairs (ascii "id")).getD []) ∧
      m.folderId = fromStringInt uninit ((recordValue pairs (ascii "folder_id")).getD []) :=
  ⟨_, loadMeta_record uninit pairs lineEnd distinct, rfl, decide_eq_true_iff, rfl, rfl, rfl⟩

/-- All but the flag is what the record says. The flag is set unless the count is written `0`, so
that it is right only for a count of 0 that is written in another way. -/
theorem loadMeta_ofRecord_iff (uninit : Int) (pairs : List MetaPair) (lineEnd : UInt8)
    (distinct : (pairs.map MetaPair.key).Nodup) :
    (∃ m, loadMeta uninit .init (metaRecord pairs lineEnd) = some (m, true) ∧ OfRecord pairs m) ↔
      ∃ text, recordValue pairs (ascii "unread") = some text ∧ IntegerText text 0 ∧
      text ≠ ascii "0" := by
  obtain ⟨m, loaded, values, flag, date, id, folderId⟩ :=
    loadMeta_fields uninit pairs lineEnd distinct
  have integers (key text : Bytes) (n : Int) (value : recordValue pairs key = some text)
      (integer : IntegerText text n) (range : IsInt n) :
      fromStringInt uninit ((recordValue pairs key).getD []) = n := by
    rw [value]
    exact fromStringInt_integerText uninit n text integer range
  constructor
  · rintro ⟨m', loaded', ofRecord⟩
    obtain ⟨rfl, -⟩ := Prod.mk.inj (Option.some.inj (loaded.symm.trans loaded'))
    -- a count written as `0` is one of 0, and clears the flag
    have nonzero : recordValue pairs (ascii "unread") ≠ some (ascii "0") := by
      intro zero
      refine flag.mp (ofRecord.isRead.mpr ⟨ascii "0", zero, ?_⟩) (by rw [zero]; rfl)
      exact .plain (ascii "0") (by decide) (List.all_eq_true.mp (by decide))
    have other : (recordValue pairs (ascii "unread")).getD [] ≠ ascii "0" := by
      cases value : recordValue pairs (ascii "unread") with
      | none => decide
      | some text =>
        rintro rfl
        exact nonzero value
    obtain ⟨text, value, integer⟩ := ofRecord.isRead.mp (flag.mpr other)
    exact ⟨text, value, integer, fun zero => nonzero (value.trans (congrArg some zero))⟩
  · rintro ⟨text, value, integer, nonzero⟩
    refine ⟨m, loaded, values, fun text n value integer range => ?_,
      fun text n value integer range => ?_,
      date, iff_of_true ?_ ⟨text, value, integer⟩⟩
    · exact id.trans (integers _ text n value integer range)
    · exact folderId.trans (integers _ text n value integer range)
    · rw [flag, value]
      exact nonzero

/-- The pairs of a record with a key `unread` and an id of 300. -/
def unreadPairs (count : Bytes) (plain : doubleQuote ∉ count ∧ comma ∉ count) : List MetaPair :=
  [⟨ascii "unread", count, true, false, by decide, plain.1, fun _ => plain.2⟩,
    ⟨ascii "id", ascii "300", true, false, by decide, by decide, by decide⟩]

/-- The count is written with two digits. -/
theorem loadMeta_ofRecord_padded :
    ∃ m, loadMeta 0 .init (metaRecord (unreadPairs (ascii "00") (by decide)) '\n'.toUInt8) =
      some (m, true) ∧
      OfRecord (unreadPairs (ascii "00") (by decide)) m :=
  (loadMeta_ofRecord_iff 0 _ _ (by decide)).mpr
    ⟨ascii "00",
      by decide, .plain (ascii "00") (by decide) (List.all_eq_true.mp (by decide)), by decide⟩

/-- A mail that has been read, `{"unread":0,"id":300}`, is not taken as read. -/
theorem loadMeta_read_not_seen :
    ¬ ∃ m, loadMeta 0 .init (metaRecord (unreadPairs (ascii "0") (by decide)) '\n'.toUInt8) =
      some (m, true) ∧
      OfRecord (unreadPairs (ascii "0") (by decide)) m := by
  rintro ⟨m, loaded, ofRecord⟩
  have zero : IntegerText (ascii "0") 0 :=
    .plain (ascii "0") (by decide) (List.all_eq_true.mp (by decide))
  have read := ofRecord.isRead.mpr ⟨ascii "0", by decide, zero⟩
  have flag : (loadMeta 0 .init (metaRecord (unreadPairs (ascii "0") (by decide)) '\n'.toUInt8)).map
      (·.1.isRead) = some false := by
    decide +kernel
  rw [loaded, Option.map_some, Option.some_inj, read] at flag
  cases flag

end Metafile

end Zn
