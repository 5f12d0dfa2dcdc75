import MyStudy.SimNsim.Configuration

/-!
# Configuration texts

Texts with a section `[CONFIGURATION]`, a section `[COMMANDS]` and the queues, as they may be laid
out with comments and blank lines: their lines, and what the loops make of a line of each kind.
-/
namespace SimNsim

/-! ### Lines -/

/-- Blanks that may stand around a text in its line. -/
def IsPad (pad : Bytes) : Prop := ∀ c ∈ pad, isTrimmed c = true ∧ c ≠ lf

def IsText (text : Bytes) : Prop := ∀ c ∈ text, c ≠ lf ∧ c ≠ 0

structure CommentLine where
  pad : Bytes
  rest : Bytes
  isPad : IsPad pad
  isText : IsText rest
  short : (pad ++ '#'.toUInt8 :: rest).length < 1024

def CommentLine.line (c : CommentLine) : Bytes := c.pad ++ '#'.toUInt8 :: c.rest

structure BlankLine where
  pad : Bytes
  isPad : IsPad pad
  short : pad.length < 1024

/-- What may stand between two sections. -/
inductive GapLine where
  | comment (c : CommentLine)
  | blank (b : BlankLine)

def GapLine.line : GapLine → Bytes
  | .comment c => c.line
  | .blank b => b.pad

/-- What may stand in a section. -/
inductive BodyLine (α : Type) where
  | comment (c : CommentLine)
  | item (a : α)

structure HeaderLine where
  name : Bytes
  left : Bytes
  right : Bytes
  isText : IsText name
  padLeft : IsPad left
  padRight : IsPad right
  short : (left ++ '['.toUInt8 :: (name ++ ']'.toUInt8 :: right)).length < 1024

namespace HeaderLine

def text (h : HeaderLine) : Bytes := '['.toUInt8 :: (h.name ++ [']'.toUInt8])

def line (h : HeaderLine) : Bytes := h.left ++ h.text ++ h.right

end HeaderLine

/-- A key and a value with blanks around them. -/
structure ItemLine where
  key : Bytes
  value : Bytes
  left : Bytes
  beforeSign : Bytes
  behindSign : Bytes
  right : Bytes
  keyTrimmed : Trimmed key
  valueTrimmed : Trimmed value
  keyText : IsText key
  valueText : IsText value
  noSign : '='.toUInt8 ∉ key
  noComment : key.head? ≠ some '#'.toUInt8
  noHeader : key.head? ≠ some '['.toUInt8
  padLeft : IsPad left
  padBefore : IsPad beforeSign
  padBehind : IsPad behindSign
  padRight : IsPad right
  short : (left ++ (key ++ beforeSign ++ '='.toUInt8 :: (behindSign ++ value)) ++ right).length <
    1024

namespace ItemLine

def text (i : ItemLine) : Bytes := i.key ++ i.beforeSign ++ '='.toUInt8 :: (i.behindSign ++ i.value)

def line (i : ItemLine) : Bytes := i.left ++ i.text ++ i.right

end ItemLine

/-! ### Sections -/

inductive Setting where
  | serverPort
  | logfilePath
  | connectStr
  | disconnectStr
  | logoutStr
  | exetimer
  deriving DecidableEq, Repr

def Setting.name : Setting → Bytes
  | .serverPort => SimNsim.serverPort
  | .logfilePath => SimNsim.logfilePath
  | .connectStr => SimNsim.connectStr
  | .disconnectStr => SimNsim.disconnectStr
  | .logoutStr => SimNsim.logoutStr
  | .exetimer => SimNsim.exetimer

structure SettingItem extends ItemLine where
  setting : Setting
  known : key = setting.name

/-- `name=type:text`. -/
structure CommandItem extends ItemLine where
  type : UInt8
  cmd : Bytes
  form : value = type :: ':'.toUInt8 :: cmd

/-- `id=name`, or `id=name*`. -/
structure QueueItem extends ItemLine where
  name : Bytes
  starred : Bool
  form : value = if starred then name ++ [star] else name
  plain : name.getLast? ≠ some star

structure QueueSection where
  gap : List GapLine
  header : HeaderLine
  body : List (BodyLine QueueItem)
  noConfig : header.text ≠ headConfig
  noCommands : header.text ≠ headCommands

def itemsOf {α : Type} (body : List (BodyLine α)) : List α :=
  body.filterMap fun
    | .comment _ => none
    | .item a => some a

/-- A configuration as the simulator documents it. -/
structure ConfigText where
  before : List GapLine
  configHeader : HeaderLine
  settings : List (BodyLine SettingItem)
  gap : List GapLine
  commandsHeader : HeaderLine
  commands : List (BodyLine CommandItem)
  queues : List QueueSection
  isConfig : configHeader.text = headConfig
  isCommands : commandsHeader.text = headCommands
  defined : ∀ q ∈ queues, ∀ item ∈ itemsOf q.body, ∃ c ∈ itemsOf commands, c.key = item.name
  finalNewline : Bool

section Lines

variable {α : Type} (line : α → Bytes)

def bodyLines (body : List (BodyLine α)) : List Bytes :=
  body.map fun
    | .comment c => c.line
    | .item a => line a

end Lines

def QueueSection.lines (q : QueueSection) : List Bytes :=
  q.gap.map GapLine.line ++ q.header.line :: bodyLines (fun item => item.line) q.body

namespace ConfigText

def lines (doc : ConfigText) : List Bytes :=
  doc.before.map GapLine.line ++ doc.configHeader.line ::
    (bodyLines (fun item => item.line) doc.settings ++
      (doc.gap.map GapLine.line ++ doc.commandsHeader.line ::
        (bodyLines (fun item => item.line) doc.commands ++ doc.queues.flatMap QueueSection.lines)))

/-- The file; its last line may lack the newline. -/
def text (doc : ConfigText) : Bytes :=
  let whole := doc.lines.flatMap (· ++ [lf])
  if doc.finalNewline then whole else whole.dropLast

end ConfigText

/-! ### Reading the lines -/

theorem readLines_line (buf line rest : Bytes) (clean : ∀ c ∈ line, c ≠ lf)
    (short : buf.length + line.length < 1024) :
    readLines buf (line ++ lf :: rest) = (buf ++ line) :: readLines [] rest := by
  induction line generalizing buf with
  | nil => simp [readLines]
  | cons c line ih =>
    have other : c ≠ lf := clean c (by simp)
    have fits : ¬ buf.length = configLineMax - 1 := by
      rw [List.length_cons] at short
      rw [configLineMax]
      omega
    rw [List.cons_append, readLines, if_neg other, if_neg fits,
      ih _ (fun d member => clean d (List.mem_cons_of_mem c member)) (by
        rw [List.length_append, List.length_singleton]
        rw [List.length_cons] at short
        omega)]
    simp

theorem readLines_last (buf line : Bytes) (clean : ∀ c ∈ line, c ≠ lf)
    (short : buf.length + line.length < 1024) (some_ : buf ++ line ≠ []) :
    readLines buf line = [buf ++ line] := by
  induction line generalizing buf with
  | nil =>
    rw [List.append_nil] at some_ ⊢
    rw [readLines, if_neg some_]
  | cons c line ih =>
    have other : c ≠ lf := clean c (by simp)
    have fits : ¬ buf.length = configLineMax - 1 := by
      rw [List.length_cons] at short
      rw [configLineMax]
      omega
    rw [readLines, if_neg other, if_neg fits,
      ih _ (fun d member => clean d (List.mem_cons_of_mem c member)) (by
        rw [List.length_append, List.length_singleton]
        rw [List.length_cons] at short
        omega) (by simp)]
    simp

/-- A line that `getline` delivers as it is. -/
def IsLine (line : Bytes) : Prop := IsText line ∧ line.length < 1024

theorem readLines_lines (lines : List Bytes) (clean : ∀ line ∈ lines, IsLine line) :
    readLines [] (lines.flatMap (· ++ [lf])) = lines := by
  induction lines with
  | nil => rfl
  | cons line lines ih =>
    obtain ⟨text, short⟩ := clean line (by simp)
    rw [List.flatMap_cons, List.append_assoc, List.singleton_append,
      readLines_line [] line _ (fun c member => (text c member).1) (by simpa using short),
      ih fun l member => clean l (List.mem_cons_of_mem line member), List.nil_append]

theorem readLines_dropLast (lines : List Bytes) (last : Bytes)
    (clean : ∀ line ∈ lines ++ [last], IsLine line) (some_ : last ≠ []) :
    readLines [] ((lines ++ [last]).flatMap (· ++ [lf])).dropLast = lines ++ [last] := by
  induction lines with
  | nil =>
    obtain ⟨text, short⟩ := clean last (by simp)
    simp only [List.nil_append, List.flatMap_cons, List.flatMap_nil, List.append_nil,
      List.dropLast_concat]
    rw [readLines_last [] last (fun c member => (text c member).1) (by simpa using short)
      (by simpa using some_), List.nil_append]
  | cons line lines ih =>
    obtain ⟨text, short⟩ := clean line (by simp)
    have more : (lines ++ [last]).flatMap (· ++ [lf]) ≠ [] := by simp
    rw [List.cons_append, List.flatMap_cons, List.append_assoc, List.singleton_append,
      List.dropLast_append_of_ne_nil (by simp), List.dropLast_cons_of_ne_nil more,
      readLines_line [] line _ (fun c member => (text c member).1) (by simpa using short),
      ih fun l member => clean l (by rw [List.cons_append]; exact List.mem_cons_of_mem line member),
      List.nil_append]

theorem isText_append {left right : Bytes} (textLeft : IsText left) (textRight : IsText right) :
    IsText (left ++ right) := fun c member =>
  (List.mem_append.mp member).elim (textLeft c) (textRight c)

theorem isText_cons {c : UInt8} {text : Bytes} (plain : c ≠ lf ∧ c ≠ 0) (rest : IsText text) :
    IsText (c :: text) := by
  intro d member
  rcases List.mem_cons.mp member with rfl | later
  · exact plain
  · exact rest d later

theorem IsPad.isText {pad : Bytes} (isPad : IsPad pad) : IsText pad := by
  intro c member
  refine ⟨(isPad c member).2, ?_⟩
  rintro rfl
  exact absurd (isPad 0 member).1 (by decide)

theorem CommentLine.isLine (c : CommentLine) : IsLine c.line :=
  ⟨isText_append c.isPad.isText (isText_cons (by decide) c.isText), c.short⟩

theorem GapLine.isLine (g : GapLine) : IsLine g.line := by
  cases g with
  | comment c => exact c.isLine
  | blank b => exact ⟨b.isPad.isText, b.short⟩

theorem HeaderLine.isLine (h : HeaderLine) : IsLine h.line := by
  refine ⟨isText_append (isText_append h.padLeft.isText (isText_cons (by decide)
    (isText_append h.isText ?_))) h.padRight.isText, ?_⟩
  · exact isText_cons (by decide) (by simp [IsText])
  · have short := h.short
    rw [line, text]
    simp only [List.length_append, List.length_cons, List.length_nil] at short ⊢
    omega

theorem ItemLine.isLine (i : ItemLine) : IsLine i.line :=
  ⟨isText_append (isText_append i.padLeft.isText
    (isText_append (isText_append i.keyText i.padBefore.isText) (isText_cons (by decide)
      (isText_append i.padBehind.isText i.valueText)))) i.padRight.isText, i.short⟩

theorem bodyLines_isLine {α : Type} (line : α → Bytes) (body : List (BodyLine α))
    (each : ∀ a, IsLine (line a)) : ∀ l ∈ bodyLines line body, IsLine l := by
  intro l member
  obtain ⟨b, _, rfl⟩ := List.mem_map.mp member
  cases b with
  | comment c => exact c.isLine
  | item a => exact each a

theorem gapLines_isLine (gap : List GapLine) : ∀ l ∈ gap.map GapLine.line, IsLine l := by
  intro l member
  obtain ⟨g, _, rfl⟩ := List.mem_map.mp member
  exact g.isLine

namespace ConfigText

theorem lines_isLine (doc : ConfigText) : ∀ l ∈ doc.lines, IsLine l := by
  intro l member
  simp only [lines, List.mem_append, List.mem_cons, List.mem_flatMap] at member
  rcases member with gap | rfl | body | gap | rfl | body | ⟨q, _, section_⟩
  · exact gapLines_isLine _ l gap
  · exact doc.configHeader.isLine
  · exact bodyLines_isLine _ _ (fun item => item.isLine) l body
  · exact gapLines_isLine _ l gap
  · exact doc.commandsHeader.isLine
  · exact bodyLines_isLine _ _ (fun item => item.isLine) l body
  · rw [QueueSection.lines, List.mem_append, List.mem_cons] at section_
    rcases section_ with gap | rfl | body
    · exact gapLines_isLine _ l gap
    · exact q.header.isLine
    · exact bodyLines_isLine _ _ (fun item => item.isLine) l body

end ConfigText

/-- The last line is not empty. -/
def EndsSolid (lines : List Bytes) : Prop := ∃ front last, lines = front ++ [last] ∧ last ≠ []

theorem EndsSolid.append {lines : List Bytes} (before : List Bytes) (solid : EndsSolid lines) :
    EndsSolid (before ++ lines) := by
  obtain ⟨front, last, rfl, some_⟩ := solid
  exact ⟨before ++ front, last, by rw [List.append_assoc], some_⟩

theorem endsSolid_of_all (lines : List Bytes) (some_ : lines ≠ []) (each : ∀ l ∈ lines, l ≠ []) :
    EndsSolid lines := by
  rcases List.eq_nil_or_concat' lines with rfl | ⟨front, last, rfl⟩
  · exact absurd rfl some_
  · exact ⟨front, last, rfl, each last (by simp)⟩

theorem endsSolid_section {α : Type} (h : HeaderLine) (line : α → Bytes) (body : List (BodyLine α))
    (each : ∀ a, line a ≠ []) : EndsSolid (h.line :: bodyLines line body) := by
  apply endsSolid_of_all _ (by simp)
  intro l member
  rcases List.mem_cons.mp member with rfl | later
  · simp [HeaderLine.line, HeaderLine.text]
  · obtain ⟨b, _, rfl⟩ := List.mem_map.mp later
    cases b with
    | comment c => simp [CommentLine.line]
    | item a => exact each a

theorem ItemLine.line_ne_nil (i : ItemLine) : i.line ≠ [] := by
  simp [ItemLine.line, ItemLine.text]

namespace ConfigText

theorem lines_endsSolid (doc : ConfigText) : EndsSolid doc.lines := by
  rw [lines, ← List.cons_append, ← List.cons_append]
  apply EndsSolid.append
  apply EndsSolid.append
  apply EndsSolid.append
  rcases List.eq_nil_or_concat' doc.queues with none_ | ⟨front, q, last⟩
  · rw [none_, List.flatMap_nil, List.append_nil]
    exact endsSolid_section _ _ _ fun item => item.line_ne_nil
  · rw [last, List.flatMap_append, List.flatMap_singleton, QueueSection.lines]
    apply EndsSolid.append
    apply EndsSolid.append
    apply EndsSolid.append
    exact endsSolid_section _ _ _ fun item => item.line_ne_nil

/-- The loops are given the lines of the text, with or without a newline at its end. -/
theorem readLines_text (doc : ConfigText) : readLines [] doc.text = doc.lines := by
  rw [text]
  split
  · exact readLines_lines doc.lines doc.lines_isLine
  · obtain ⟨front, last, same, some_⟩ := doc.lines_endsSolid
    have clean := doc.lines_isLine
    rw [same] at clean ⊢
    exact readLines_dropLast front last clean some_

end ConfigText

/-! ### What the loops make of a line -/

theorem cstr_line (line : Bytes) (isLine : IsLine line) : cstr line = line :=
  cstr_clean line fun zero => (isLine.1 0 zero).2 rfl

theorem CommentLine.trim_line (c : CommentLine) :
    ∃ strLine, trim (cstr c.line) = some strLine ∧ strLine.head? = some '#'.toUInt8 := by
  have notAll : (c.pad ++ '#'.toUInt8 :: c.rest).all isTrimmed = false := by
    rw [List.all_eq_false]
    exact ⟨'#'.toUInt8, by simp, by decide⟩
  have front : (c.pad ++ '#'.toUInt8 :: c.rest).dropWhile isTrimmed = '#'.toUInt8 :: c.rest := by
    rw [List.dropWhile_append_of_pos fun d member => (c.isPad d member).1,
      List.dropWhile_cons_of_neg (by decide)]
  rw [cstr_line _ c.isLine, CommentLine.line, trim, if_neg (by simp), notAll,
    if_neg Bool.false_ne_true, front]
  refine ⟨_, rfl, ?_⟩
  -- blanks are taken from the end only as far as the sign
  obtain ⟨more, cut⟩ := List.rdropWhile_prefix isTrimmed ('#'.toUInt8 :: c.rest)
  cases kept : ('#'.toUInt8 :: c.rest).rdropWhile isTrimmed with
  | nil =>
    rw [List.rdropWhile_eq_nil_iff] at kept
    exact absurd (kept '#'.toUInt8 (by simp)) (by decide)
  | cons d others =>
    rw [kept] at cut
    rw [(List.cons.inj cut).1]
    rfl

theorem BlankLine.trim_line (b : BlankLine) :
    trim (cstr b.pad) = if b.pad = [] then some [] else none := by
  rw [cstr_line _ ⟨b.isPad.isText, b.short⟩]
  split
  next empty =>
    rw [empty]
    rfl
  next some_ =>
    rw [trim_eq_none_iff]
    exact ⟨some_, fun c member => (b.isPad c member).1⟩

theorem HeaderLine.trim_line (h : HeaderLine) : trim (cstr h.line) = some h.text := by
  rw [cstr_line _ h.isLine, HeaderLine.line]
  apply trim_padded
  · refine ⟨by simp [HeaderLine.text], ?_, ?_⟩
    · rintro c ⟨⟩
      decide
    · rw [HeaderLine.text, ← List.cons_append, List.getLast?_concat]
      rintro c ⟨⟩
      decide
  · exact fun c member => (h.padLeft c member).1
  · exact fun c member => (h.padRight c member).1

theorem ItemLine.trim_line (i : ItemLine) : trim (cstr i.line) = some i.text := by
  rw [cstr_line _ i.isLine, ItemLine.line]
  have keySome : i.key ≠ [] := i.keyTrimmed.nonempty
  have valueSome : i.value ≠ [] := i.valueTrimmed.nonempty
  apply trim_padded
  · refine ⟨by simp [ItemLine.text], fun c first => i.keyTrimmed.first c ?_, fun c last =>
      i.valueTrimmed.last c ?_⟩
    · obtain ⟨a, rest, same⟩ := List.exists_cons_of_ne_nil keySome
      rw [ItemLine.text, same] at first
      rw [same]
      exact first
    · rw [ItemLine.text, ← List.cons_append, ← List.append_assoc,
        List.getLast?_append_of_ne_nil _ valueSome] at last
      exact last
  · exact fun c member => (i.padLeft c member).1
  · exact fun c member => (i.padRight c member).1

theorem ItemLine.text_head (i : ItemLine) : i.text ≠ [] ∧ i.text.head? ≠ some '#'.toUInt8 ∧
    i.text.head? ≠ some '['.toUInt8 := by
  obtain ⟨a, rest, same⟩ := List.exists_cons_of_ne_nil i.keyTrimmed.nonempty
  have first : i.text.head? = i.key.head? := by rw [ItemLine.text, same]; rfl
  rw [first]
  exact ⟨by simp [ItemLine.text], i.noComment, i.noHeader⟩

theorem parseLine_comment (c : CommentLine) : parseLine c.line = .comment := by
  obtain ⟨strLine, trimmed, first⟩ := c.trim_line
  simp [parseLine, trimmed, first]

theorem parseLine_blank (b : BlankLine) :
    parseLine b.pad = if b.pad = [] then .stop else .undefined := by
  rw [parseLine, b.trim_line]
  by_cases empty : b.pad = []
  · rw [if_pos empty, if_pos empty]
    rfl
  · rw [if_neg empty, if_neg empty]

theorem parseLine_header (h : HeaderLine) : parseLine h.line = .stop := by
  rw [parseLine, h.trim_line]
  rfl

theorem trim_item (left str right : Bytes) (trimmed : Trimmed str) (padLeft : IsPad left)
    (padRight : IsPad right) : trim (left ++ str ++ right) = some str :=
  trim_padded left str right trimmed (fun c member => (padLeft c member).1)
    fun c member => (padRight c member).1

theorem parseLine_item (i : ItemLine) : parseLine i.line = .item i.key i.value := by
  obtain ⟨some_, noComment, noHeader⟩ := i.text_head
  have noSign : '='.toUInt8 ∉ i.key ++ i.beforeSign := by
    intro member
    rcases List.mem_append.mp member with key | pad
    · exact i.noSign key
    · exact absurd (i.padBefore _ pad).1 (by decide)
  -- the first sign is the one behind the key
  have sign : i.text.idxOf? '='.toUInt8 = some (i.key ++ i.beforeSign).length := by
    rw [ItemLine.text]
    exact idxOf?_append_cons _ _ _ noSign
  have before : i.text.take (i.key ++ i.beforeSign).length = i.key ++ i.beforeSign := by
    rw [ItemLine.text, List.take_left]
  have behind : i.text.drop ((i.key ++ i.beforeSign).length + 1) = i.behindSign ++ i.value := by
    rw [ItemLine.text, ← List.drop_drop, List.drop_left]
    rfl
  have key : trim (i.key ++ i.beforeSign) = some i.key := by
    have padded := trim_item [] i.key i.beforeSign i.keyTrimmed (by simp [IsPad]) i.padBefore
    simpa using padded
  have value : trim (i.behindSign ++ i.value) = some i.value := by
    have padded := trim_item i.behindSign i.value [] i.valueTrimmed i.padBehind (by simp [IsPad])
    simpa using padded
  rw [parseLine, i.trim_line]
  simp only [noComment, if_false, some_, noHeader, decide_false, Bool.or_self, Bool.false_eq_true,
    parseItem, sign, before, behind, key, value, i.keyTrimmed.nonempty, i.valueTrimmed.nonempty]

end SimNsim
