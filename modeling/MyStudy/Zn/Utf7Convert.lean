import MyStudy.Zn.Misc

/-!
# Folder names in modified UTF-7

`zn_utf7_converter` spells a folder path for an IMAP command: printable ASCII stands for itself,
`&` becomes `&-`, and everything else goes through `iconv`. Backslashes and double quotes are
escaped at the end.
-/
namespace Zn

/-- The exceptions under `zn_folder_name_encoder_exception`. -/
inductive FolderNameError where
  | convert (errno : Nat)
  | pathLength (folderPath : Bytes)
  | nameLength (folderPath folderName : Bytes)
  deriving DecidableEq, Repr

/-- `iconv` from UTF-8 to UTF-7. A call of `convert` takes some of the input and gives output for
it, with `E2BIG` when some is left; `flush` is the call without input. Errors carry `errno`. A call
with input and an empty output buffer takes at least one byte unless it fails. -/
structure Iconv where
  State : Type
  start : Except Nat State
  convert : State → Bytes → Except Nat (State × Nat × Bytes)
  flush : State → Except Nat Bytes
  progress : ∀ s input s' used out, input ≠ [] → convert s input = .ok (s', used, out) → 0 < used

/-- `isprint` in the C locale. -/
def isPrint (c : UInt8) : Bool := 0x20 ≤ c && c ≤ 0x7e

/-- The loop around `iconv`; `append(out_buf)` takes the output as a C string. A call takes at
least a byte, so as many rounds as bytes are enough. -/
def iconvLoop (iconv : Iconv) : Nat → iconv.State → Bytes → Except Nat Bytes
  | 0, s, _ => (iconv.flush s).map cstr
  | rounds + 1, s, input =>
    if input = [] then (iconv.flush s).map cstr
    else do
      let (s', used, out) ← iconv.convert s input
      let more ← iconvLoop iconv rounds s' (input.drop used)
      return cstr out ++ more

/-- `_convert_utf8_to_utf7`. `strcpy` stops at a NUL, and the buffer behind it holds zeros. -/
def convertUtf8ToUtf7 (iconv : Iconv) (inStr : Bytes) : Except FolderNameError Bytes :=
  let inBuf := cstr inStr ++ List.replicate (inStr.length - (cstr inStr).length) 0
  match iconv.start with
  | .error errno => .error (.convert errno)
  | .ok s =>
    match iconvLoop iconv inBuf.length s inBuf with
    | .error errno => .error (.convert errno)
    | .ok outStr => .ok outStr

/-- The loop of `_convert_utf8_to_modified_utf7`, with the run of characters that are not printable
so far in `tmpStr`. -/
def modifiedUtf7Loop (iconv : Iconv) (tmpStr : Bytes) : Bytes → Except FolderNameError Bytes
  | [] => .ok []
  | c :: inStr =>
    if isPrint c then do
      let outStr ← modifiedUtf7Loop iconv tmpStr inStr
      return (if c = '&'.toUInt8 then [c, '-'.toUInt8] else [c]) ++ outStr
    -- the last character of its run: the run is converted as a whole
    else if inStr.head?.all isPrint then do
      let utf7 ← convertUtf8ToUtf7 iconv (tmpStr ++ [c])
      let outStr ← modifiedUtf7Loop iconv [] inStr
      -- `iconv` starts the run with a plus
      return replaceCharactorAll ('&'.toUInt8 :: utf7.drop 1) slash [comma] ++ outStr
    else modifiedUtf7Loop iconv (tmpStr ++ [c]) inStr

def backslash : UInt8 := '\\'.toUInt8

def quote : UInt8 := '"'.toUInt8

/-- The escaping at the end of `_convert_utf8_to_modified_utf7`. -/
def escapeName (outStr : Bytes) : Bytes :=
  replaceCharactorAll (replaceCharactorAll outStr backslash [backslash, backslash]) quote
    [backslash, quote]

def convertUtf8ToModifiedUtf7 (iconv : Iconv) (inStr : Bytes) : Except FolderNameError Bytes :=
  (modifiedUtf7Loop iconv [] inStr).map escapeName

/-- `check_folder_name_length`: the length of the path, and of each name in it. -/
def checkFolderNameLength (folderPath : Bytes) : Except FolderNameError Unit :=
  if folderPath.length > 248 then .error (.pathLength folderPath)
  else
    -- the first name that is too long is the one reported
    match (folderPath.splitOn slash).find? (·.length > 64) with
    | some folderName => .error (.nameLength folderPath folderName)
    | none => .ok ()

def convertFolderPath (iconv : Iconv) (inStr : Bytes) : Except FolderNameError Bytes := do
  let outStr ← convertUtf8ToModifiedUtf7 iconv inStr
  checkFolderNameLength outStr
  return outStr

/-- The loop around `iconv` ends by itself: any rounds that are enough for the input give the same
text. -/
theorem iconvLoop_enough (iconv : Iconv) (rounds rounds' : Nat) (s : iconv.State) (input : Bytes)
    (enough : input.length ≤ rounds) (enough' : input.length ≤ rounds') :
    iconvLoop iconv rounds s input = iconvLoop iconv rounds' s input := by
  have nothing (n : Nat) (s : iconv.State) : iconvLoop iconv n s [] = (iconv.flush s).map cstr := by
    cases n <;> simp [iconvLoop]
  induction rounds generalizing rounds' s input with
  | zero =>
    rw [List.eq_nil_of_length_eq_zero (Nat.le_zero.mp enough), nothing, nothing]
  | succ rounds ih =>
    cases rounds' with
    | zero => rw [List.eq_nil_of_length_eq_zero (Nat.le_zero.mp enough'), nothing, nothing]
    | succ rounds' =>
      rw [iconvLoop, iconvLoop]
      split
      · rfl
      next some_ =>
        cases result : iconv.convert s input with
        | error errno => rfl
        | ok r =>
          obtain ⟨s', used, out⟩ := r
          have pos := iconv.progress s input s' used out some_ result
          -- progress: the input that is left fits the rounds that are left
          have shorter : (input.drop used).length < input.length := by
            have := List.length_pos_of_ne_nil some_
            rw [List.length_drop]
            omega
          have same := ih rounds' s' (input.drop used) (by omega) (by omega)
          simp only [bind, Except.bind, same]

/-- A spelled path is escaped text. -/
theorem convertFolderPath_escaped (iconv : Iconv) (inStr outStr : Bytes)
    (done : convertFolderPath iconv inStr = .ok outStr) : ∃ text, outStr = escapeName text := by
  rw [convertFolderPath, convertUtf8ToModifiedUtf7] at done
  cases converted : modifiedUtf7Loop iconv [] inStr with
  | error e => rw [converted] at done; simp [Except.map, bind, Except.bind] at done
  | ok text =>
    simp only [converted, Except.map, bind, Except.bind] at done
    cases checked : checkFolderNameLength (escapeName text) with
    | error e => rw [checked] at done; simp at done
    | ok _ =>
      rw [checked] at done
      exact ⟨text, (Except.ok.inj done).symm⟩

/-! ### Escaping -/

def escapeChar (c : UInt8) : Bytes :=
  if c = backslash then [backslash, backslash] else if c = quote then [backslash, quote] else [c]

theorem escapeName_eq (name : Bytes) : escapeName name = name.flatMap escapeChar := by
  rw [escapeName, replaceCharactorAll, replaceCharactorAll, List.flatMap_assoc]
  refine List.flatMap_congr fun c _ => ?_
  rw [escapeChar]
  split
  · decide
  · simp

/-- The name behind an escaped one. -/
def unescapeName : Bytes → Bytes
  | [] => []
  | [c] => [c]
  | c :: d :: s => if c = backslash then d :: unescapeName s else c :: unescapeName (d :: s)

theorem unescapeName_cons (c : UInt8) (s : Bytes) (plain : c ≠ backslash) :
    unescapeName (c :: s) = c :: unescapeName s := by
  cases s with
  | nil => rfl
  | cons d s => rw [unescapeName, if_neg plain]

theorem unescapeName_escapeName (name : Bytes) : unescapeName (escapeName name) = name := by
  rw [escapeName_eq]
  induction name with
  | nil => rfl
  | cons c name ih =>
    rw [List.flatMap_cons, escapeChar]
    split
    next same => simp [unescapeName, ih, same]
    next plain =>
      split
      next same => simp [unescapeName, ih, same]
      · rw [List.singleton_append, unescapeName_cons c _ plain, ih]

/-! ### Plain names -/

/-- The characters that a name is spelled with as they are. -/
def isPlain (c : UInt8) : Bool :=
  isPrint c && c != '&'.toUInt8 && c != backslash && c != quote

theorem replaceCharactorAll_absent (str : Bytes) (search : UInt8) (rep : Bytes)
    (absent : search ∉ str) : replaceCharactorAll str search rep = str := by
  induction str with
  | nil => rfl
  | cons c str ih =>
    rw [List.mem_cons, not_or] at absent
    rw [replaceCharactorAll, List.flatMap_cons, if_neg (Ne.symm absent.1), List.singleton_append]
    exact congrArg (c :: ·) (ih absent.2)

theorem modifiedUtf7Loop_plain (iconv : Iconv) (tmpStr inStr : Bytes)
    (plain : ∀ c ∈ inStr, isPlain c = true) : modifiedUtf7Loop iconv tmpStr inStr = .ok inStr := by
  induction inStr with
  | nil => rfl
  | cons c inStr ih =>
    -- each character stands for itself, so no run ever starts
    have here := plain c List.mem_cons_self
    simp only [isPlain, Bool.and_eq_true, bne_iff_ne, ne_eq] at here
    rw [modifiedUtf7Loop, if_pos here.1.1.1,
      ih fun d member => plain d (List.mem_cons_of_mem c member), if_neg here.1.1.2]
    rfl

/-- A path of plain characters is spelled as it is, or is too long. -/
theorem convertFolderPath_plain (iconv : Iconv) (inStr outStr : Bytes)
    (plain : ∀ c ∈ inStr, isPlain c = true) (done : convertFolderPath iconv inStr = .ok outStr) :
    outStr = inStr := by
  have noBackslash : backslash ∉ inStr := fun member => by
    have := plain _ member
    simp [isPlain] at this
  have noQuote : quote ∉ inStr := fun member => by
    have := plain _ member
    simp [isPlain] at this
  rw [convertFolderPath, convertUtf8ToModifiedUtf7, modifiedUtf7Loop_plain iconv [] inStr plain]
    at done
  simp only [Except.map, escapeName, replaceCharactorAll_absent _ _ _ noBackslash,
    replaceCharactorAll_absent _ _ _ noQuote, bind, Except.bind] at done
  cases checked : checkFolderNameLength inStr with
  | error e => rw [checked] at done; simp at done
  | ok _ =>
    rw [checked] at done
    exact (Except.ok.inj done).symm

/-- An `iconv` without the conversion to UTF-7. Names of plain characters do not need it. -/
def Iconv.none : Iconv where
  State := Empty
  start := .error 22
  convert s := s.elim
  flush s := s.elim
  progress s := s.elim

end Zn
