import MyStudy.Lib.Bytes

/-!
# String literals of SQL

What a program puts between two quotes of a statement, as MySQL reads it: a quote in it is written
twice, and a backslash begins an escape sequence. A text that is put there as it is may end the
literal early, or not at all.
-/
namespace SqlString

abbrev backslash : UInt8 := '\\'.toUInt8

/-- What an escape sequence stands for. -/
def unescape (c : UInt8) : Bytes :=
  if c = '0'.toUInt8 then [0]
  else if c = 'b'.toUInt8 then [8]
  else if c = 'n'.toUInt8 then [10]
  else if c = 'r'.toUInt8 then [13]
  else if c = 't'.toUInt8 then [9]
  else if c = 'Z'.toUInt8 then [26]
  -- these two keep their backslash outside of patterns
  else if c = '%'.toUInt8 || c = '_'.toUInt8 then [backslash, c]
  else [c]

/-- A literal from behind its opening quote: the text, and what follows the closing quote. -/
def read (quote : UInt8) : Bytes → Option (Bytes × Bytes)
  | [] => none
  | [c] => if c = quote then some ([], []) else none
  | c :: d :: rest =>
    if c = quote then
      if d = quote then (read quote rest).map (Prod.map (quote :: ·) id) else some ([], d :: rest)
    else if c = backslash then (read quote rest).map (Prod.map (unescape d ++ ·) id)
    else (read quote (d :: rest)).map (Prod.map (c :: ·) id)

/-- The text between quotes is a literal that stands for the value, and nothing follows it. -/
def ReadsAs (quote : UInt8) (text value : Bytes) : Prop :=
  read quote (text ++ [quote]) = some (value, [])

instance (quote : UInt8) (text value : Bytes) : Decidable (ReadsAs quote text value) :=
  inferInstanceAs (Decidable (_ = _))

/-- The text ends the literal before its own end. -/
def EndsEarly (quote : UInt8) (text : Bytes) : Prop :=
  ∃ value c rest, read quote (text ++ [quote]) = some (value, c :: rest)

/-- A text without quotes and backslashes stands for itself. -/
theorem readsAs_plain (quote : UInt8) (text : Bytes) (noQuote : quote ∉ text)
    (noBackslash : backslash ∉ text) : ReadsAs quote text text := by
  rw [ReadsAs]
  induction text with
  | nil => simp [read]
  | cons c text ih =>
    rw [List.mem_cons, not_or] at noQuote noBackslash
    obtain ⟨d, rest, more⟩ := List.exists_cons_of_ne_nil (List.concat_ne_nil quote text)
    have later := ih noQuote.2 noBackslash.2
    rw [List.cons_append, more, read, if_neg (Ne.symm noQuote.1), if_neg (Ne.symm noBackslash.1),
      ← more, later]
    rfl

end SqlString
