import MyStudy.Zn.Cimap

/-!
# The grammar of APPEND

A reader for the command as IMAP defines it, with a mailbox that is an atom or a quoted string. It
is what a server makes of the bytes the client writes.
-/
namespace Zn

open Program

abbrev space : UInt8 := ' '.toUInt8

/-- ASTRING-CHAR: no control character, no space and none of the characters with a meaning of
their own. -/
def isAstringChar (c : UInt8) : Bool :=
  0x21 ≤ c && c ≤ 0x7e && !(c ∈ ascii "()\x7b%*\"\\")

/-- ATOM-CHAR, which leaves out the closing bracket, too. -/
def isAtomChar (c : UInt8) : Bool := isAstringChar c && c != ']'.toUInt8

def isTagChar (c : UInt8) : Bool := isAstringChar c && c != '+'.toUInt8

/-- TEXT-CHAR, as it may stand in a quoted string. -/
def isTextChar (c : UInt8) : Bool := 0 < c && c < 0x80 && c != 13 && c != 10

/-- `flag`: a keyword, or a backslash and an atom. -/
def isFlag (flag : Bytes) : Bool :=
  let name := if flag.head? = some backslash then flag.drop 1 else flag
  !name.isEmpty && name.all isAtomChar

structure Flag where
  text : Bytes
  valid : isFlag text = true

/-- A flags value: nothing, or a list in parentheses. -/
def renderFlags : Option (List Flag) → Bytes
  | none => []
  | some flags => ascii "(" ++ [space].intercalate (flags.map Flag.text) ++ ascii ")"

/-! ### The reader -/

def expect (text s : Bytes) : Option Bytes :=
  if text.isPrefixOf s then some (s.drop text.length) else none

/-- One or more characters, as many as there are. -/
def readMany (p : UInt8 → Bool) (s : Bytes) : Option (Bytes × Bytes) :=
  if s.takeWhile p = [] then none else some (s.takeWhile p, s.dropWhile p)

/-- A quoted string behind its first quote. -/
def readQuoted : Bytes → Option (Bytes × Bytes)
  | [] => none
  | [c] => if c = quote then some ([], []) else none
  | c :: d :: s =>
    if c = quote then some ([], d :: s)
    else if c = backslash then
      if d = quote || d = backslash then (readQuoted s).map fun r => (d :: r.1, r.2) else none
    else if isTextChar c then (readQuoted (d :: s)).map fun r => (c :: r.1, r.2)
    else none

def readAstring (s : Bytes) : Option (Bytes × Bytes) :=
  if s.head? = some quote then readQuoted (s.drop 1) else readMany isAstringChar s

/-- `[flag-list SP]`. No flag has a closing parenthesis or a space in it. -/
def readFlags (s : Bytes) : Option (Option (List Bytes) × Bytes) :=
  if s.head? = some '('.toUInt8 then do
    let text := (s.drop 1).takeWhile (· != ')'.toUInt8)
    let flags := if text = [] then [] else text.splitOn space
    let s ← expect (ascii ") ") ((s.drop 1).drop text.length)
    if flags.all isFlag then some (some flags, s) else none
  else some (none, s)

/-- What an APPEND says. -/
structure AppendCommand where
  tag : Bytes
  mailbox : Bytes
  flags : Option (List Bytes)
  message : Bytes
  deriving DecidableEq, Repr

/-- The mailbox, behind "APPEND", and the rest of the line with the length of the literal. -/
def readArguments (s : Bytes) : Option ((Bytes × Option (List Bytes) × Nat) × Bytes) := do
  let (mailbox, s) ← readAstring s
  let s ← expect (ascii " ") s
  let (flags, s) ← readFlags s
  let s ← expect (ascii "\x7b") s
  let (digits, s) ← readMany isDigit s
  let s ← expect (ascii "\x7d" ++ cimapCmdEnd) s
  return ((mailbox, flags, numeral 10 digits), s)

/-- The octets of the literal, and the end of the command. -/
def readMessage (length : Nat) (s : Bytes) : Option (Bytes × Bytes) :=
  if s.length < length then none
  else (expect cimapCmdEnd (s.drop length)).map fun rest => (s.take length, rest)

def readAppend (s : Bytes) : Option (AppendCommand × Bytes) := do
  let (tag, s) ← readMany isTagChar s
  let s ← expect (ascii " APPEND ") s
  let ((mailbox, flags, length), s) ← readArguments s
  let (message, rest) ← readMessage length s
  return (⟨tag, mailbox, flags, message⟩, rest)

theorem expect_append (text s : Bytes) : expect text (text ++ s) = some s := by
  simp [expect]

theorem readMany_append (p : UInt8 → Bool) (text s : Bytes) (some_ : text ≠ [])
    (all : ∀ c ∈ text, p c = true) (stops : ∀ c, s.head? = some c → p c = false) :
    readMany p (text ++ s) = some (text, s) := by
  have rest : s.takeWhile p = [] ∧ s.dropWhile p = s := by
    cases s with
    | nil => exact ⟨rfl, rfl⟩
    | cons c s => simp [stops c rfl]
  rw [readMany, List.takeWhile_append_of_pos all, List.dropWhile_append_of_pos all, rest.1, rest.2,
    List.append_nil, if_neg some_]

/-! ### Escaped names -/

theorem escapeName_head (name : Bytes) : (escapeName name).head? ≠ some quote := by
  rw [escapeName_eq]
  cases name with
  | nil => simp
  | cons c name =>
    rw [List.flatMap_cons, escapeChar]
    split
    · simp; decide
    · split
      · simp; decide
      next other => simpa using other

theorem escapeName_astring (name : Bytes) (all : ∀ c ∈ name, isAstringChar c = true) :
    escapeName name = name := by
  have absent (c : UInt8) (special : isAstringChar c = false) : c ∉ name := fun member => by
    rw [all c member] at special
    simp at special
  rw [escapeName, replaceCharactorAll_absent name _ _ (absent backslash (by decide)),
    replaceCharactorAll_absent name _ _ (absent quote (by decide))]

theorem mem_escapeName (c : UInt8) (name : Bytes) (member : c ∈ name) : c ∈ escapeName name := by
  rw [escapeName_eq]
  refine List.mem_flatMap.mpr ⟨c, member, ?_⟩
  rw [escapeChar]
  split
  next same => simp [same]
  · split
    next same => simp [same]
    · simp

/-! ### The line of an APPEND -/

theorem mem_flag (flag : Flag) (c : UInt8) (member : c ∈ flag.text) :
    c ≠ space ∧ c ≠ ')'.toUInt8 := by
  have plain (d : UInt8) (among : isAtomChar d = true) : d ≠ space ∧ d ≠ ')'.toUInt8 := by
    refine ⟨?_, ?_⟩ <;> rintro rfl <;> revert among <;> decide
  have valid := flag.valid
  simp only [isFlag, Bool.and_eq_true, List.all_eq_true] at valid
  split at valid
  next slashed =>
    obtain ⟨name, text⟩ : ∃ name, flag.text = backslash :: name :=
      ⟨_, (List.cons_head?_tail slashed).symm⟩
    rw [text] at member valid
    rcases List.mem_cons.mp member with rfl | later
    · decide
    · exact plain c (valid.2 c later)
  · exact plain c (valid.2 c member)

theorem flag_ne_nil (flag : Flag) : flag.text ≠ [] := by
  intro none_
  have valid := flag.valid
  rw [none_] at valid
  revert valid
  decide

/-- A separated list holds what its pieces hold, and separators. -/
theorem mem_intercalate (sep c : UInt8) (pieces : List Bytes)
    (member : c ∈ [sep].intercalate pieces) : c = sep ∨ ∃ piece ∈ pieces, c ∈ piece := by
  induction pieces with
  | nil => simp at member
  | cons piece pieces ih =>
    by_cases last : pieces = []
    · rw [last, List.intercalate_singleton] at member
      exact Or.inr ⟨piece, by simp, member⟩
    · rw [List.intercalate_cons_of_ne_nil last, List.mem_append, List.mem_append] at member
      rcases member with (here | between) | later
      · exact Or.inr ⟨piece, by simp, here⟩
      · exact Or.inl (List.mem_singleton.mp between)
      · rcases ih later with same | ⟨piece', among, inside⟩
        · exact Or.inl same
        · exact Or.inr ⟨piece', List.mem_cons_of_mem piece among, inside⟩

theorem readFlags_render (flags : Option (List Flag)) (s : Bytes)
    (other : s.head? ≠ some '('.toUInt8) :
    readFlags (optionalArgument (renderFlags flags) ++ s) =
      some (flags.map (List.map Flag.text), s) := by
  cases flags with
  | none => simp [renderFlags, optionalArgument, readFlags, other]
  | some flags =>
    let text := [space].intercalate (flags.map Flag.text)
    -- no flag has a parenthesis in it, so the first one ends the list
    have clean : ∀ c ∈ text, (c != ')'.toUInt8) = true := by
      intro c member
      rcases mem_intercalate space c _ member with rfl | ⟨_, among, inside⟩
      · decide
      · obtain ⟨flag, _, rfl⟩ := List.mem_map.mp among
        simpa using (mem_flag flag c inside).2
    -- and none has a blank
    have pieces : (if text = [] then [] else text.splitOn space) = flags.map Flag.text := by
      cases flags with
      | nil => rfl
      | cons flag flags =>
        have apart : ∀ piece ∈ (flag :: flags).map Flag.text, space ∉ piece := by
          intro piece among inside
          obtain ⟨flag', _, rfl⟩ := List.mem_map.mp among
          exact (mem_flag flag' space inside).1 rfl
        have some_ : text ≠ [] := by
          intro none_
          have back := List.splitOn_intercalate space apart (by simp)
          rw [show [space].intercalate ((flag :: flags).map Flag.text) = [] from none_] at back
          exact flag_ne_nil flag (List.cons.inj back).1.symm
        rw [if_neg some_, List.splitOn_intercalate space apart (by simp)]
    have rendered : optionalArgument (renderFlags (some flags)) ++ s =
        ascii "(" ++ (text ++ (ascii ") " ++ s)) := by
      simp [optionalArgument, renderFlags, text, ascii]
    have cut : (text ++ (ascii ") " ++ s)).takeWhile (· != ')'.toUInt8) = text := by
      rw [List.takeWhile_append_of_pos clean]
      exact List.append_nil text
    have valid : (flags.map Flag.text).all isFlag = true := by
      rw [List.all_map, List.all_eq_true]
      exact fun flag _ => flag.valid
    have opened : ascii "(" ++ (text ++ (ascii ") " ++ s)) =
      '('.toUInt8 :: (text ++ (ascii ") " ++ s)) := rfl
    rw [rendered, opened, readFlags]
    simp only [List.head?_cons, if_true, List.drop_one, List.tail_cons, cut, List.drop_left,
      expect_append, pieces, Option.bind_eq_bind, Option.bind_some, valid, Option.map_some]

/-- The arguments of an APPEND as the client writes them. -/
def argumentsLine (name : Bytes) (flags : Option (List Flag)) (length : Nat) : Bytes :=
  name ++ (ascii " " ++ (optionalArgument (renderFlags flags) ++
    (ascii "\x7b" ++ (decimal length ++ (ascii "\x7d" ++ cimapCmdEnd)))))

theorem appendLine_eq (name : Bytes) (flags : Option (List Flag)) (message : Bytes) :
    appendLine { mailboxname := name, flags := renderFlags flags, literal := message } =
      cimapTag ++ (ascii " APPEND " ++ argumentsLine name flags message.length) := by
  simp [appendLine, argumentsLine, optionalArgument, Verb.word, ascii]

theorem readAstring_name (name s : Bytes) (some_ : name ≠ [])
    (all : ∀ c ∈ name, isAstringChar c = true) :
    readAstring (name ++ (ascii " " ++ s)) = some (name, ascii " " ++ s) := by
  obtain ⟨c, rest, rfl⟩ := List.exists_cons_of_ne_nil some_
  have unquoted : c ≠ quote := by
    rintro rfl
    exact absurd (all quote (by simp)) (by decide)
  rw [readAstring, if_neg (by simpa using unquoted)]
  refine readMany_append _ _ _ some_ all fun d head => ?_
  rw [← Option.some.inj head]
  decide

theorem readArguments_line (name : Bytes) (flags : Option (List Flag)) (length : Nat) (s : Bytes)
    (some_ : name ≠ []) (all : ∀ c ∈ name, isAstringChar c = true) :
    readArguments (argumentsLine name flags length ++ s) =
      some ((name, flags.map (List.map Flag.text), length), s) := by
  have digits (s : Bytes) : readMany isDigit (decimal length ++ (ascii "\x7d" ++ s)) =
      some (decimal length, ascii "\x7d" ++ s) := by
    refine readMany_append _ _ _ (decimal_ne_nil length) (mem_decimal length) fun d head => ?_
    rw [← Option.some.inj head]
    decide
  have braced (s : Bytes) : (ascii "\x7b" ++ s).head? ≠ some '('.toUInt8 := by
    intro same
    exact absurd (Option.some.inj same) (by decide)
  have closed : expect (ascii "\x7d" ++ cimapCmdEnd) (ascii "\x7d" ++ (cimapCmdEnd ++ s)) =
      some s := by
    rw [← List.append_assoc, expect_append]
  rw [readArguments, argumentsLine]
  simp only [List.append_assoc, readAstring_name name _ some_ all, expect_append, digits,
    readFlags_render flags _ (braced _), Option.bind_eq_bind, Option.bind_some, numeral_decimal,
    closed]
  rfl

/-- An escaped name that is read as the name itself had nothing to escape. -/
theorem readAstring_escaped (name s s' : Bytes)
    (read : readAstring (escapeName name ++ (ascii " " ++ s)) = some (name, s')) :
    escapeName name ≠ [] ∧ ∀ c ∈ escapeName name, isAstringChar c = true := by
  have unquoted : (escapeName name ++ (ascii " " ++ s)).head? ≠ some quote := by
    cases escaped : escapeName name with
    | nil => exact fun same => absurd (Option.some.inj same) (by decide)
    | cons c rest =>
      have head := escapeName_head name
      rw [escaped] at head
      exact head
  rw [readAstring, if_neg unquoted, readMany] at read
  split at read
  · simp at read
  next some_ =>
    simp only [Option.some.injEq, Prod.mk.injEq] at read
    have all : ∀ c ∈ name, isAstringChar c = true := by
      rw [← read.1]
      exact fun c member => List.mem_takeWhile_imp member
    rw [escapeName_astring name all]
    exact ⟨read.1 ▸ some_, all⟩

/-- Whatever is read, if the mailbox is the name then it needed no escapes. -/
theorem readArguments_mailbox (name : Bytes) (flags : Option (List Flag)) (length : Nat)
    (s rest : Bytes) (flags' : Option (List Bytes)) (length' : Nat)
    (read : readArguments (argumentsLine (escapeName name) flags length ++ s) =
      some ((name, flags', length'), rest)) :
    escapeName name ≠ [] ∧ ∀ c ∈ escapeName name, isAstringChar c = true := by
  rw [readArguments] at read
  cases mailbox : readAstring (argumentsLine (escapeName name) flags length ++ s) with
  | none => rw [mailbox] at read; simp at read
  | some r =>
    obtain ⟨name', s'⟩ := r
    have same : name' = name := by
      simp only [mailbox, Option.bind_eq_bind, Option.bind_some, Option.bind_eq_some_iff, pure,
        Option.some.injEq, Prod.mk.injEq] at read
      obtain ⟨_, _, _, _, _, _, _, _, _, _, ⟨rfl, _⟩, _⟩ := read
      rfl
    rw [same, argumentsLine, List.append_assoc, List.append_assoc] at mailbox
    exact readAstring_escaped name _ s' mailbox

theorem readAppend_tagged (s : Bytes) :
    readAppend (cimapTag ++ (ascii " APPEND " ++ s)) =
      (readArguments s).bind fun r => (readMessage r.1.2.2 r.2).map fun m =>
        (⟨cimapTag, r.1.1, r.1.2.1, m.1⟩, m.2) := by
  have tag : readMany isTagChar (cimapTag ++ (ascii " APPEND " ++ s)) =
      some (cimapTag, ascii " APPEND " ++ s) := by
    refine readMany_append _ _ _ (by decide) (by decide +kernel) fun d head => ?_
    rw [← Option.some.inj head]
    decide
  rw [readAppend, tag]
  simp only [Option.bind_eq_bind, Option.bind_some, expect_append]
  cases readArguments s with
  | none => rfl
  | some r =>
    simp only [Option.bind_some]
    cases readMessage r.1.2.2 r.2 <;> rfl

/-- A message is read from its octets with a line end behind them. -/
theorem readMessage_iff (message s : Bytes) :
    readMessage message.length s = some (message, []) ↔ s = message ++ cimapCmdEnd := by
  constructor
  · intro read
    rw [readMessage] at read
    split at read
    · simp at read
    · obtain ⟨rest, ended, result⟩ := Option.map_eq_some_iff.mp read
      obtain ⟨front, rfl⟩ := Prod.mk.inj result
      rw [expect] at ended
      split at ended
      next begins =>
        obtain ⟨more, back⟩ := List.isPrefixOf_iff_prefix.mp begins
        rw [← back, List.drop_left, Option.some.injEq] at ended
        rw [← List.take_append_drop message.length s, front, ← back, ended, List.append_nil]
      · simp at ended
  · rintro rfl
    have ended := expect_append cimapCmdEnd []
    rw [List.append_nil] at ended
    rw [readMessage, if_neg (by simp), List.drop_left, List.take_left, ended]
    rfl

/-- A line with something behind it is read back if its name is an atom and this is the message. -/
theorem readAppend_line_iff (name : Bytes) (flags : Option (List Flag)) (message s : Bytes) :
    readAppend (appendLine
        { mailboxname := escapeName name, flags := renderFlags flags, literal := message } ++ s) =
      some (⟨cimapTag, name, flags.map (List.map Flag.text), message⟩, []) ↔
      (escapeName name ≠ [] ∧ ∀ c ∈ escapeName name, isAstringChar c = true) ∧
        s = message ++ cimapCmdEnd := by
  rw [appendLine_eq, List.append_assoc, List.append_assoc, readAppend_tagged]
  constructor
  · intro read
    obtain ⟨⟨⟨mailbox, flags', length⟩, s'⟩, arguments, rest⟩ := Option.bind_eq_some_iff.mp read
    obtain ⟨⟨message', more⟩, octets, result⟩ := Option.map_eq_some_iff.mp rest
    simp only [Prod.mk.injEq, AppendCommand.mk.injEq, true_and] at result
    obtain ⟨⟨rfl, rfl, rfl⟩, rfl⟩ := result
    obtain ⟨some_, all⟩ := readArguments_mailbox mailbox flags _ _ s' _ length arguments
    rw [readArguments_line _ _ _ _ some_ all] at arguments
    simp only [Option.some.injEq, Prod.mk.injEq, true_and] at arguments
    obtain ⟨⟨_, rfl⟩, rfl⟩ := arguments
    exact ⟨⟨some_, all⟩, (readMessage_iff message' s).mp octets⟩
  · rintro ⟨⟨some_, all⟩, octets⟩
    -- the name of an atom is not escaped
    have plain : escapeName name = name :=
      escapeName_astring name fun c member => all c (mem_escapeName c name member)
    rw [readArguments_line _ _ _ _ some_ all, Option.bind_some,
      (readMessage_iff message s).mpr octets, plain]
    rfl

/-! ### What the client writes -/

/-- The bytes a run puts on the wire. -/
def bytesOf (events : List Event) : Bytes := events.flatMap Event.sent

/-- What an APPEND writes after its line: nothing if there is no first response, else the message
and, unless that is empty, the line end. -/
def writtenAfterLine (server : Server) (options : CimapOptions) (w : World) : Bytes :=
  if server.reads w.readCount = none then []
  else options.literal ++ if options.literal = [] then [] else cimapCmdEnd

theorem performAppend_bytes (server : Server) (options : CimapOptions) (w : World)
    (complete : ∀ call length, server.writes call length = some (Fin.last length)) :
    bytesOf (eventsOf (performAppend server options) w) =
      appendLine options ++ writtenAfterLine server options w := by
  have all (call length : Nat) : server.taken call length = length := by
    rw [Server.taken, complete]
    rfl
  -- no step of it takes bytes back, so what each one writes adds up
  suffices run : Ensures (performAppend server options) w
      (fun _ w' => ∃ events, w'.trace = w.trace ++ events ∧ bytesOf events =
        appendLine options ++ writtenAfterLine server options w)
      (fun _ w' => ∃ events, w'.trace = w.trace ++ events ∧ bytesOf events =
        appendLine options ++ writtenAfterLine server options w) by
    obtain ⟨events, trace, bytes⟩ := run.finalState
    rw [eventsOf, trace, List.drop_left, bytes]
  have notEmpty : appendLine options ≠ [] := by simp [appendLine, cimapTag, ascii]
  rw [performAppend, ensures_bind]
  refine ensures_sendCommand server notEmpty (fun _ => ?_) fun short => absurd (all _ _) short
  rw [ensures_bind]
  refine ensures_read server (fun response reads => ?_) fun none_ => ?_
  · have answered : server.reads w.readCount = some response := reads
    rw [ensures_bind]
    refine ensures_appendLiteral server (complete _ _) ?_
    cases literal : options.literal with
    | nil =>
      exact ⟨[.command .append options (appendLine options), .received response, .literal []],
        by simp [World.wrote, World.receives],
        by simp [bytesOf, Event.sent, writtenAfterLine, answered, literal]⟩
    -- only behind a literal with bytes in it is the end written
    | cons c message =>
      simp only [List.isEmpty_cons, Bool.not_false, if_true, ensures_bind]
      refine ensures_write server ?_
      rw [all, List.take_length]
      have sent (rest : List Event) (quiet : bytesOf rest = []) :
          bytesOf (.command .append options (appendLine options) :: .received response ::
              .literal (c :: message) :: .cmdEnd cimapCmdEnd :: rest) =
            appendLine options ++ writtenAfterLine server options w := by
        rw [bytesOf] at quiet
        simp [bytesOf, Event.sent, quiet, writtenAfterLine, answered, literal]
      refine ensures_read server (fun final _ => ?_) fun _ => ?_
      · exact ⟨_, by simp [World.wrote, World.receives], sent [.received final] rfl⟩
      · exact ⟨_, by simp [World.wrote, World.receives], sent [] rfl⟩
  · have unread : server.reads w.readCount = none := none_
    exact ⟨[.command .append options (appendLine options)], by simp [World.wrote],
      by simp [bytesOf, Event.sent, writtenAfterLine, unread]⟩

/-- What the client writes for a name that is spelled for IMAP is read back as that name, those
flags and that message, with nothing left over, exactly if the name is an atom, the message is not
empty and the server says something before it. -/
theorem append_reads_back_iff_atom (server : Server) (iconv : Iconv) (path name : Bytes)
    (flags : Option (List Flag)) (message : Bytes) (w : World)
    (spelled : convertFolderPath iconv path = .ok name)
    (complete : ∀ call length, server.writes call length = some (Fin.last length)) :
    readAppend (bytesOf (eventsOf (performAppend server
        { mailboxname := name, flags := renderFlags flags, literal := message }) w)) =
      some (⟨cimapTag, unescapeName name, flags.map (List.map Flag.text), message⟩, []) ↔
      (name ≠ [] ∧ ∀ c ∈ name, isAstringChar c = true) ∧ message ≠ [] ∧
        server.reads w.readCount ≠ none := by
  obtain ⟨text, rfl⟩ := convertFolderPath_escaped iconv path name spelled
  rw [performAppend_bytes server _ w complete, unescapeName_escapeName, readAppend_line_iff]
  refine and_congr_right fun _ => ?_
  simp only [writtenAfterLine]
  split
  next unread => simp [unread, cimapCmdEnd]
  next answered =>
    split
    next none_ => simp [none_, cimapCmdEnd]
    next some_ => simp [some_, answered]

def seenFlag : Flag := ⟨ascii "\\Seen", by decide⟩

/-- A server that asks for every literal. -/
def askingServer : Server := .reliable (fun _ => ascii "+ go ahead\r\n") fun _ => by decide

theorem append_reads_back_iff_atom_inbox :
    readAppend (bytesOf (eventsOf (performAppend askingServer
        { mailboxname := ascii "/Inbox", flags := renderFlags (some [seenFlag]),
          literal := ascii "hello" }) ⟨0, 0, [], []⟩)) =
      some (⟨cimapTag, unescapeName (ascii "/Inbox"), some [ascii "\\Seen"], ascii "hello"⟩, []) :=
  (append_reads_back_iff_atom askingServer .none (ascii "/Inbox") (ascii "/Inbox")
    (some [seenFlag]) (ascii "hello") ⟨0, 0, [], []⟩ (by decide +kernel) fun _ _ => rfl).mpr
    ⟨by decide +kernel, by decide, by decide⟩

/-- The name the tool itself gives to the folder of sent mails has a space, and is not quoted. -/
theorem append_splits_sent_messages :
    convertFolderPath .none (changeName (ascii "/Sent")) = .ok (ascii "/Sent Messages") ∧
      readAppend (bytesOf (eventsOf (performAppend askingServer
        { mailboxname := ascii "/Sent Messages", flags := renderFlags (some [seenFlag]),
          literal := ascii "hello" }) ⟨0, 0, [], []⟩)) = none := by
  decide +kernel

end Zn
