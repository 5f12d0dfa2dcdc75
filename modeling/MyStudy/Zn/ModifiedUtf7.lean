import MyStudy.Lib.Base64
import MyStudy.Lib.Utf16
import MyStudy.Zn.Utf7Convert

/-!
# Modified UTF-7 read back

What a server makes of a folder name: the reader IMAP defines for modified UTF-7, and that the
spelling of every path comes back through it.
-/
namespace Zn

/-! ### The reader -/

theorem digitValue_digitChar_comma :
    ∀ n < 64, Base64.digitValue comma (Base64.digitChar comma n) = some n := by decide

/-- The alphabet of modified UTF-7, with a comma in place of the slash. -/
def imapAlphabet : Base64.Alphabet :=
  ⟨Base64.digitChar comma, Base64.digitValue comma, digitValue_digitChar_comma⟩

def isPrintable (c : Char) : Bool := 0x20 ≤ c.toNat && c.toNat ≤ 0x7e

/-- The characters between `&` and `-`: nothing stands for the ampersand. Printable characters
stand for themselves and are not spelled this way. -/
def decodeShift (code : Bytes) : Option (List Char) :=
  if code = [] then some ['&']
  else
    match (Base64.decode imapAlphabet code).bind Utf16.decode with
    | none => none
    | some chars => if chars.any isPrintable then none else some chars

/-- The reader, with the characters since the last open `&`. -/
def decodeFrom : Option Bytes → Bytes → Option (List Char)
  | none, [] => some []
  -- the name ends with an `&` that is not closed
  | some _, [] => none
  | none, c :: text =>
    if c = '&'.toUInt8 then decodeFrom (some []) text
    else if isPrint c then (decodeFrom none text).map (Char.ofNat c.toNat :: ·)
    else none
  | some code, c :: text =>
    if c = '-'.toUInt8 then
      (decodeShift code).bind fun chars => (decodeFrom none text).map (chars ++ ·)
    else decodeFrom (some (code ++ [c])) text

def decodeModifiedUtf7 (name : Bytes) : Option (List Char) := decodeFrom none name

/-! ### What is assumed of `iconv` -/

/-- The bytes of characters in UTF-8. -/
def utf8 (chars : List Char) : Bytes := chars.flatMap String.utf8EncodeChar

def isAscii (c : Char) : Bool := c.toNat < 0x80

def isControl (c : Char) : Bool := c.toNat < 0x20 || c.toNat = 0x7f

/-- A run of characters in UTF-7. -/
def utf7 (run : List Char) : Bytes :=
  '+'.toUInt8 :: (Base64.encode Base64.standard (Utf16.encode run) ++ ['-'.toUInt8])

/-- Calls of `iconv` from this state take all of the input, and their output together with that of
the last call, without input, is the text. -/
inductive Iconv.Outputs (iconv : Iconv) : iconv.State → Bytes → Bytes → Prop
  | flush (s : iconv.State) (out : Bytes) (done : iconv.flush s = .ok out) : Outputs iconv s [] out
  | convert (s s' : iconv.State) (used : Nat) (input out rest : Bytes) (some_ : input ≠ [])
      (taken : iconv.convert s input = .ok (s', used, out))
      (later : Outputs iconv s' (input.drop used) rest) : Outputs iconv s input (out ++ rest)

def Iconv.Turns (iconv : Iconv) (input text : Bytes) : Prop :=
  ∃ s, iconv.start = .ok s ∧ iconv.Outputs s input text

/-! ### The spelling of a path -/

/-- A run between `&` and `-`. -/
def shift (run : List Char) : Bytes :=
  '&'.toUInt8 :: (Base64.encode imapAlphabet (Utf16.encode run) ++ ['-'.toUInt8])

/-- The spelling, with the run before the path. -/
def spellFrom (run : List Char) : List Char → Bytes
  | [] => if run = [] then [] else shift run
  | c :: path =>
    if isAscii c then
      (if run = [] then [] else shift run) ++
        (if c = '&' then ['&'.toUInt8, '-'.toUInt8] else utf8 [c]) ++ spellFrom [] path
    else spellFrom (run ++ [c]) path

/-! ### Bytes of characters -/

theorem utf8_cons (c : Char) (chars : List Char) :
    utf8 (c :: chars) = String.utf8EncodeChar c ++ utf8 chars := List.flatMap_cons

theorem utf8_append (front back : List Char) : utf8 (front ++ back) = utf8 front ++ utf8 back :=
  List.flatMap_append

theorem utf8_ascii (c : Char) (low : isAscii c = true) :
    String.utf8EncodeChar c = [UInt8.ofNat c.toNat] := by
  rw [isAscii, decide_eq_true_eq] at low
  have small : c.val.toNat ≤ 0x7f := Nat.le_of_lt_succ low
  rw [String.utf8EncodeChar]
  exact if_pos small

/-- Every byte of a character that is not ASCII has its high bit set. -/
theorem utf8_high (c : Char) (high : isAscii c = false) :
    String.utf8EncodeChar c ≠ [] ∧ ∀ b ∈ String.utf8EncodeChar c, 0x80 ≤ b.toNat := by
  rw [isAscii, decide_eq_false_iff_not] at high
  have large : ¬ c.val.toNat ≤ 0x7f := fun small => high (Nat.lt_succ_of_le small)
  simp only [String.utf8EncodeChar]
  rw [if_neg large]
  split
  · simp
    omega
  · split
    · simp
      omega
    · simp
      omega

theorem utf8_highs (run : List Char) (high : ∀ c ∈ run, isAscii c = false) :
    ∀ b ∈ utf8 run, 0x80 ≤ b.toNat := by
  intro b member
  obtain ⟨c, among, byte⟩ := List.mem_flatMap.mp member
  exact (utf8_high c (high c among)).2 b byte

theorem toNat_ascii (c : Char) (low : isAscii c = true) :
    (UInt8.ofNat c.toNat).toNat = c.toNat := by
  rw [isAscii, decide_eq_true_eq] at low
  rw [UInt8.toNat_ofNat', Nat.mod_eq_of_lt (by omega)]

theorem ampersand_iff (c : Char) (low : isAscii c = true) :
    UInt8.ofNat c.toNat = '&'.toUInt8 ↔ c = '&' := by
  constructor
  · intro same
    have code : c.toNat = '&'.toNat := by
      rw [← toNat_ascii c low, same]
      rfl
    rw [← Char.ofNat_toNat c, code]
    rfl
  · rintro rfl
    rfl

theorem isPrint_high (b : UInt8) (high : 0x80 ≤ b.toNat) : isPrint b = false := by
  have above : ¬ b ≤ 0x7e := by
    rw [UInt8.le_iff_toNat_le]
    have bound : (0x7e : UInt8).toNat = 0x7e := rfl
    omega
  simp [isPrint, above]

theorem isPrint_ascii (c : Char) (low : isAscii c = true) (plain : isControl c = false) :
    isPrint (UInt8.ofNat c.toNat) = true := by
  have code := toNat_ascii c low
  simp only [isAscii, decide_eq_true_eq] at low
  simp only [isControl, Bool.or_eq_false_iff, decide_eq_false_iff_not] at plain
  rw [isPrint, Bool.and_eq_true, decide_eq_true_eq, decide_eq_true_eq, UInt8.le_iff_toNat_le,
    UInt8.le_iff_toNat_le, code]
  exact ⟨Nat.le_of_not_lt plain.1, by simp; omega⟩

/-! ### Runs -/

theorem iconvLoop_outputs (iconv : Iconv) (s : iconv.State) (input text : Bytes)
    (outputs : iconv.Outputs s input text) (clean : 0 ∉ text) (rounds : Nat)
    (enough : input.length ≤ rounds) : iconvLoop iconv rounds s input = .ok text := by
  induction outputs generalizing rounds with
  | flush s out done =>
    have last : (iconv.flush s).map cstr = .ok out := by rw [done, Except.map, cstr_clean out clean]
    cases rounds with
    | zero => rw [iconvLoop, last]
    | succ rounds => rw [iconvLoop, if_pos rfl, last]
  | convert s s' used input out rest some_ taken later ih =>
    simp only [List.mem_append, not_or] at clean
    have pos := iconv.progress s input s' used out some_ taken
    have length := List.length_pos_of_ne_nil some_
    -- a call takes a byte at least, so a round is left for the rest
    obtain ⟨rounds, rfl⟩ : ∃ n, rounds = n + 1 := ⟨rounds - 1, by omega⟩
    have more := ih clean.2 rounds (by rw [List.length_drop]; omega)
    rw [iconvLoop, if_neg some_, taken]
    simp only [bind, Except.bind, more, cstr_clean out clean.1]
    rfl

theorem convertUtf8ToUtf7_turns (iconv : Iconv) (input text : Bytes)
    (turns : iconv.Turns input text) (clean : 0 ∉ input) (clean' : 0 ∉ text) :
    convertUtf8ToUtf7 iconv input = .ok text := by
  obtain ⟨s, start, outputs⟩ := turns
  have whole : cstr input ++ List.replicate (input.length - (cstr input).length) 0 = input := by
    rw [cstr_clean input clean, Nat.sub_self, List.replicate_zero, List.append_nil]
  simp only [convertUtf8ToUtf7, whole, start]
  rw [iconvLoop_outputs iconv s input text outputs clean' input.length (Nat.le_refl _)]

theorem modifiedUtf7Loop_run (iconv : Iconv) (tmpStr run inStr : Bytes) (some_ : run ≠ [])
    (unprintable : ∀ b ∈ run, isPrint b = false) :
    modifiedUtf7Loop iconv tmpStr (run ++ inStr) =
      if inStr.head?.all isPrint then do
        let utf7 ← convertUtf8ToUtf7 iconv (tmpStr ++ run)
        let outStr ← modifiedUtf7Loop iconv [] inStr
        return replaceCharactorAll ('&'.toUInt8 :: utf7.drop 1) slash [comma] ++ outStr
      else modifiedUtf7Loop iconv (tmpStr ++ run) inStr := by
  induction run generalizing tmpStr with
  | nil => exact absurd rfl some_
  | cons b run ih =>
    have here : isPrint b = false := unprintable b (by simp)
    cases run with
    | nil =>
      rw [List.singleton_append, modifiedUtf7Loop, if_neg (by simp [here])]
    | cons d run =>
      -- the next byte belongs to the run, too
      have next : isPrint d = false := unprintable d (by simp)
      rw [List.cons_append, modifiedUtf7Loop, if_neg (by simp [here]), if_neg (by simp [next]),
        ih (tmpStr ++ [b]) (by simp) fun e member => unprintable e (by simp [member])]
      simp

theorem digitChar_lt (n : Nat) (small : n < 64) :
    isPrint (Base64.digitChar slash n) = true ∧
      (if Base64.digitChar slash n = slash then [comma] else [Base64.digitChar slash n]) =
        [Base64.digitChar comma n] ∧ Base64.digitChar comma n ≠ '-'.toUInt8 := by
  have all : ∀ n < 64, isPrint (Base64.digitChar slash n) = true ∧
      (if Base64.digitChar slash n = slash then [comma] else [Base64.digitChar slash n]) =
        [Base64.digitChar comma n] ∧ Base64.digitChar comma n ≠ '-'.toUInt8 := by decide
  exact all n small

theorem replaceCharactorAll_encode (bytes : Bytes) :
    replaceCharactorAll (Base64.encode Base64.standard bytes) slash [comma] =
      Base64.encode imapAlphabet bytes := by
  have small := Base64.sextets_lt bytes
  rw [Base64.encode, Base64.encode, replaceCharactorAll, List.flatMap_map]
  generalize Base64.sextets bytes = digits at small
  induction digits with
  | nil => rfl
  | cons n digits ih =>
    have here := (digitChar_lt n (small n (by simp))).2.1
    rw [List.flatMap_cons, ih fun m member => small m (by simp [member]), List.map_cons]
    exact congrArg (· ++ digits.map imapAlphabet.char) here

theorem replaceCharactorAll_utf7 (run : List Char) :
    replaceCharactorAll ('&'.toUInt8 :: (utf7 run).drop 1) slash [comma] = shift run := by
  have text := replaceCharactorAll_encode (Utf16.encode run)
  rw [replaceCharactorAll] at text
  rw [utf7, List.drop_one, List.tail_cons, replaceCharactorAll, List.flatMap_cons,
    List.flatMap_append, text, shift]
  rfl

theorem nul_notMem_utf7 (run : List Char) : 0 ∉ utf7 run := by
  intro member
  rw [utf7, List.mem_cons, List.mem_append] at member
  rcases member with plus | code | minus
  · exact absurd plus (by decide)
  · obtain ⟨n, small, same⟩ := Base64.mem_encode _ _ _ code
    have printed := (digitChar_lt n small).1
    rw [show Base64.digitChar slash n = 0 from same.symm] at printed
    exact absurd printed (by decide)
  · exact absurd minus (by decide)

/-- The run ends with the text, or in front of an ASCII character. -/
def Closed (path : List Char) : Prop := path.head?.all isAscii = true

instance (path : List Char) : Decidable (Closed path) := inferInstanceAs (Decidable (_ = true))

theorem head_utf8 (path : List Char) (plain : ∀ c ∈ path, isControl c = false) :
    (utf8 path).head?.all isPrint = true ↔ Closed path := by
  cases path with
  | nil => exact iff_of_true rfl rfl
  | cons c path =>
    rw [utf8_cons, Closed, List.head?_cons, Option.all_some]
    by_cases low : isAscii c = true
    · rw [utf8_ascii c low, List.singleton_append, List.head?_cons, Option.all_some]
      exact iff_of_true (isPrint_ascii c low (plain c (by simp))) low
    · obtain ⟨some_, high⟩ := utf8_high c (Bool.eq_false_iff.mpr low)
      obtain ⟨b, rest, text⟩ := List.exists_cons_of_ne_nil some_
      rw [text, List.cons_append, List.head?_cons, Option.all_some,
        isPrint_high b (high b (by rw [text]; simp))]
      exact iff_of_false (by simp) low

theorem spellFrom_closed (run path : List Char) (some_ : run ≠ []) (closed : Closed path) :
    spellFrom run path = shift run ++ spellFrom [] path := by
  cases path with
  | nil => simp [spellFrom, some_]
  | cons c path =>
    have low : isAscii c = true := closed
    simp [spellFrom, some_, low]

theorem splitOnP_ascii (c : Char) (path : List Char) (low : isAscii c = true) :
    (c :: path).splitOnP isAscii = [] :: path.splitOnP isAscii := by
  rw [List.splitOnP_cons_eq_if_modifyHead, if_pos low]

theorem mem_splitOnP_closed (run path r : List Char) (high : ∀ c ∈ run, isAscii c = false)
    (closed : Closed path) (some_ : r ≠ []) :
    r ∈ (run ++ path).splitOnP isAscii ↔ r = run ∨ r ∈ path.splitOnP isAscii := by
  cases path with
  | nil =>
    rw [List.append_nil, List.splitOnP_eq_singleton high, List.splitOnP_nil]
    simp [some_]
  | cons c path =>
    rw [List.splitOnP_append_cons_of_forall_mem high c closed path, splitOnP_ascii c path closed]
    simp [some_]

/-- An ASCII character stands for itself, with a minus behind the ampersand. -/
theorem modifiedUtf7Loop_ascii (iconv : Iconv) (c : Char) (path : List Char)
    (low : isAscii c = true) (plain : isControl c = false)
    (rest : modifiedUtf7Loop iconv [] (utf8 path) = .ok (spellFrom [] path)) :
    modifiedUtf7Loop iconv [] (utf8 (c :: path)) = .ok (spellFrom [] (c :: path)) := by
  rw [utf8_cons, utf8_ascii c low, List.singleton_append, modifiedUtf7Loop,
    if_pos (isPrint_ascii c low plain), rest, spellFrom, if_pos low]
  simp only [bind, Except.bind, ampersand_iff c low, utf8_cons, utf8_ascii c low]
  by_cases amp : c = '&'
  · subst amp
    simp only [if_true]
    rfl
  · rw [if_neg amp, if_neg amp]
    simp only [if_true]
    rfl

/-- What the loop makes of a path, when the run it is in goes on in the path. -/
theorem modifiedUtf7Loop_spell (iconv : Iconv) (run path : List Char)
    (high : ∀ c ∈ run, isAscii c = false) (open_ : run ≠ [] → ¬ Closed path)
    (plain : ∀ c ∈ path, isControl c = false)
    (turns : ∀ r ∈ (run ++ path).splitOnP isAscii, r ≠ [] → iconv.Turns (utf8 r) (utf7 r)) :
    modifiedUtf7Loop iconv (utf8 run) (utf8 path) = .ok (spellFrom run path) := by
  induction path generalizing run with
  | nil =>
    have none_ : run = [] := by
      by_contra some_
      exact open_ some_ rfl
    rw [none_]
    rfl
  | cons c path ih =>
    have plain' : ∀ d ∈ path, isControl d = false := fun d member => plain d (by simp [member])
    by_cases low : isAscii c = true
    -- no run is open in front of an ASCII character
    · have none_ : run = [] := by
        by_contra some_
        exact open_ some_ low
      subst none_
      exact modifiedUtf7Loop_ascii iconv c path low (plain c (by simp)) <|
        ih [] (by simp) (by simp) plain' fun r member some_ =>
          turns r (by rw [List.nil_append, splitOnP_ascii c path low]; exact .tail _ member) some_
    · have high' : isAscii c = false := Bool.eq_false_iff.mpr low
      obtain ⟨some_, bytes⟩ := utf8_high c high'
      have longer : utf8 (run ++ [c]) = utf8 run ++ String.utf8EncodeChar c := by
        rw [utf8_append, utf8_cons]
        exact congrArg (utf8 run ++ ·) (List.append_nil _)
      have highs : ∀ d ∈ run ++ [c], isAscii d = false := by
        intro d member
        rcases List.mem_append.mp member with before | here
        · exact high d before
        · rw [List.mem_singleton.mp here]
          exact high'
      have turns : ∀ r ∈ ((run ++ [c]) ++ path).splitOnP isAscii, r ≠ [] →
          iconv.Turns (utf8 r) (utf7 r) := by simpa using turns
      rw [utf8_cons, modifiedUtf7Loop_run iconv _ _ _ some_ fun b member =>
        isPrint_high b (bytes b member), ← longer, spellFrom, if_neg low]
      by_cases closed : Closed path
      -- the run ends here and is converted as a whole
      · have turned := turns (run ++ [c])
          ((mem_splitOnP_closed _ path _ highs closed (by simp)).mpr (.inl rfl)) (by simp)
        have converted := convertUtf8ToUtf7_turns iconv _ _ turned
          (fun nul => absurd (utf8_highs _ highs 0 nul) (by decide)) (nul_notMem_utf7 _)
        have rest := ih [] (by simp) (by simp) plain' fun r member some_ =>
          turns r ((mem_splitOnP_closed _ path r highs closed some_).mpr (.inr member)) some_
        have rest : modifiedUtf7Loop iconv [] (utf8 path) = .ok (spellFrom [] path) := rest
        rw [if_pos ((head_utf8 path plain').mpr closed), converted, rest,
          spellFrom_closed (run ++ [c]) path (by simp) closed]
        simp only [bind, Except.bind, replaceCharactorAll_utf7]
        rfl
      -- the run goes on in the next character
      · rw [if_neg (mt (head_utf8 path plain').mp closed)]
        exact ih (run ++ [c]) highs (fun _ => closed) plain' turns

/-! ### Reading the spelling -/

theorem decodeFrom_code (code more rest : Bytes) (inside : '-'.toUInt8 ∉ more) :
    decodeFrom (some code) (more ++ '-'.toUInt8 :: rest) =
      (decodeShift (code ++ more)).bind fun chars => (decodeFrom none rest).map (chars ++ ·) := by
  induction more generalizing code with
  | nil => rw [List.nil_append, decodeFrom, if_pos rfl, List.append_nil]
  | cons c more ih =>
    rw [List.mem_cons, not_or] at inside
    rw [List.cons_append, decodeFrom, if_neg (Ne.symm inside.1), ih (code ++ [c]) inside.2,
      List.append_assoc, List.singleton_append]

theorem decodeFrom_shift (run : List Char) (rest : Bytes) (some_ : run ≠ [])
    (high : ∀ c ∈ run, isAscii c = false) :
    decodeFrom none (shift run ++ rest) = (decodeFrom none rest).map (run ++ ·) := by
  have inside : '-'.toUInt8 ∉ Base64.encode imapAlphabet (Utf16.encode run) := by
    intro member
    obtain ⟨n, small, same⟩ := Base64.mem_encode _ _ _ member
    exact (digitChar_lt n small).2.2 same.symm
  have unprintable : run.any isPrintable = false := by
    rw [List.any_eq_false]
    intro c member printed
    have above := high c member
    simp only [isAscii, decide_eq_false_iff_not] at above
    simp only [isPrintable, Bool.and_eq_true, decide_eq_true_eq] at printed
    omega
  have read : decodeShift (Base64.encode imapAlphabet (Utf16.encode run)) = some run := by
    rw [decodeShift, if_neg (Base64.encode_ne_nil _ _ (Utf16.encode_ne_nil run some_)),
      Base64.decode_encode, Option.bind_some, Utf16.decode_encode]
    simp only [unprintable]
    rfl
  rw [shift, List.cons_append, decodeFrom, if_pos rfl, List.append_assoc, List.singleton_append,
    decodeFrom_code [] _ rest inside, List.nil_append, read, Option.bind_some]

theorem decodeFrom_ascii (c : Char) (rest : Bytes) (low : isAscii c = true)
    (plain : isControl c = false) :
    decodeFrom none ((if c = '&' then ['&'.toUInt8, '-'.toUInt8] else utf8 [c]) ++ rest) =
      (decodeFrom none rest).map (c :: ·) := by
  split
  next amp =>
    rw [amp]
    rfl
  next other =>
    have text : utf8 [c] = [UInt8.ofNat c.toNat] := by
      rw [utf8_cons, utf8_ascii c low]
      rfl
    rw [text, List.singleton_append, decodeFrom, if_neg (mt (ampersand_iff c low).mp other),
      if_pos (isPrint_ascii c low plain), toNat_ascii c low, Char.ofNat_toNat]

theorem decodeFrom_closing (run chars : List Char) (rest : Bytes)
    (high : ∀ c ∈ run, isAscii c = false) (read : decodeFrom none rest = some chars) :
    decodeFrom none ((if run = [] then [] else shift run) ++ rest) = some (run ++ chars) := by
  split
  next none_ => rw [none_, List.nil_append, read, List.nil_append]
  next some_ => rw [decodeFrom_shift run rest some_ high, read, Option.map_some]

theorem decodeFrom_spell (run path : List Char) (high : ∀ c ∈ run, isAscii c = false)
    (plain : ∀ c ∈ path, isControl c = false) :
    decodeFrom none (spellFrom run path) = some (run ++ path) := by
  induction path generalizing run with
  | nil =>
    have read := decodeFrom_closing run [] [] high rfl
    rwa [List.append_nil] at read
  | cons c path ih =>
    have here := plain c (by simp)
    have plain : ∀ d ∈ path, isControl d = false := fun d member => plain d (by simp [member])
    rw [spellFrom]
    split
    -- the run ends before the character, which is written as it is
    next low =>
      rw [List.append_assoc]
      apply decodeFrom_closing run (c :: path) _ high
      rw [decodeFrom_ascii c _ low here, ih [] (by simp) plain, List.nil_append, Option.map_some]
    next other =>
      have read := ih (run ++ [c]) (by
        intro d member
        rcases List.mem_append.mp member with before | last
        · exact high d before
        · rw [List.mem_singleton.mp last]
          exact Bool.eq_false_iff.mpr other) plain
      rwa [List.append_assoc, List.singleton_append] at read

/-! ### The result -/

def FolderNameError.isLength : FolderNameError → Bool
  | .convert _ => false
  | .pathLength _ => true
  | .nameLength _ _ => true

/-- A path that is too long, or has a name that is. -/
def TooLong (path : Bytes) : Prop :=
  248 < path.length ∨ ∃ name ∈ path.splitOn slash, 64 < name.length

theorem checkFolderNameLength_short (path : Bytes) (short : ¬ TooLong path) :
    checkFolderNameLength path = .ok () := by
  rw [TooLong, not_or] at short
  obtain ⟨whole, names⟩ := short
  have found : (path.splitOn slash).find? (·.length > 64) = none := by
    rw [List.find?_eq_none]
    intro name member long
    exact names ⟨name, member, of_decide_eq_true long⟩
  rw [checkFolderNameLength, if_neg whole, found]

theorem checkFolderNameLength_long (path : Bytes) (long : TooLong path) :
    ∃ e, checkFolderNameLength path = .error e ∧ e.isLength = true := by
  rw [checkFolderNameLength]
  split
  next whole => exact ⟨_, rfl, rfl⟩
  next fits =>
    obtain ⟨name, member, longName⟩ := long.resolve_left fits
    -- one name is too long, so the search finds one
    cases found : (path.splitOn slash).find? (·.length > 64) with
    | some folderName => exact ⟨_, rfl, rfl⟩
    | none =>
      rw [List.find?_eq_none] at found
      exact absurd (decide_eq_true longName) (found name member)

/-- A path without control characters is spelled so that a server reads it back, unless the
spelling is too long, which is an error. -/
theorem convertFolderPath_correct (iconv : Iconv) (path : List Char)
    (plain : ∀ c ∈ path, isControl c = false)
    (turns : ∀ run ∈ path.splitOnP isAscii, run ≠ [] → iconv.Turns (utf8 run) (utf7 run)) :
    ∃ encoded, convertUtf8ToModifiedUtf7 iconv (utf8 path) = .ok encoded ∧
      decodeModifiedUtf7 (unescapeName encoded) = some path ∧
      (TooLong encoded →
        ∃ e, convertFolderPath iconv (utf8 path) = .error e ∧ e.isLength = true) ∧
      (¬ TooLong encoded → convertFolderPath iconv (utf8 path) = .ok encoded) := by
  have spelled : convertUtf8ToModifiedUtf7 iconv (utf8 path) =
      .ok (escapeName (spellFrom [] path)) := by
    have loop := modifiedUtf7Loop_spell iconv [] path (by simp) (by simp) plain turns
    rw [convertUtf8ToModifiedUtf7, show modifiedUtf7Loop iconv [] (utf8 path) = _ from loop]
    rfl
  apply Exists.intro (escapeName (spellFrom [] path))
  apply And.intro spelled
  constructor
  · rw [unescapeName_escapeName]
    exact decodeFrom_spell [] path (by simp) plain
  constructor
  · -- the length is checked behind the escaping
    intro long
    obtain ⟨e, refused, length⟩ := checkFolderNameLength_long _ long
    exact ⟨e, by simp [convertFolderPath, spelled, refused, bind, Except.bind], length⟩
  · intro short
    simp [convertFolderPath, spelled, checkFolderNameLength_short _ short, bind, Except.bind]
    rfl

/-- An `iconv` on the path below: the call with the input keeps the bits of the last digit back. -/
def iconvAcute : Iconv where
  State := Bool
  start := .ok false
  -- any other text is `EILSEQ` here
  convert _ input := if input = [0xC3, 0xA9] then .ok (true, 2, ascii "+AO") else .error 84
  flush kept := .ok (if kept then ascii "k-" else [])
  progress _ input _ used _ _ taken := by
    split at taken
    · simp only [Except.ok.injEq, Prod.mk.injEq] at taken
      omega
    · cases taken

theorem iconvAcute_turns : iconvAcute.Turns (utf8 ['é']) (utf7 ['é']) := by
  have text : utf7 ['é'] = ascii "+AO" ++ ascii "k-" := by decide +kernel
  have bytes : utf8 ['é'] = [0xC3, 0xA9] := by decide
  rw [text, bytes]
  have last : iconvAcute.Outputs true [] (ascii "k-") :=
    @Iconv.Outputs.flush iconvAcute true _ rfl
  exact ⟨false, rfl, @Iconv.Outputs.convert iconvAcute false true 2 _ _ _ (by simp) rfl last⟩

def acutePath : List Char := ['é', '/', 'R', '&', 'D', ' ', '"', 'x', '"']

theorem convertFolderPath_acute :
    ∃ encoded, convertUtf8ToModifiedUtf7 iconvAcute (utf8 acutePath) = .ok encoded ∧
      decodeModifiedUtf7 (unescapeName encoded) = some acutePath ∧
      (TooLong encoded →
        ∃ e, convertFolderPath iconvAcute (utf8 acutePath) = .error e ∧ e.isLength = true) ∧
      (¬ TooLong encoded → convertFolderPath iconvAcute (utf8 acutePath) = .ok encoded) := by
  apply convertFolderPath_correct iconvAcute acutePath (by simp [acutePath, isControl])
  intro run member some_
  have only : ∀ r ∈ acutePath.splitOnP isAscii, r ≠ [] → r = ['é'] := by decide
  rw [only run member some_]
  exact iconvAcute_turns

end Zn
