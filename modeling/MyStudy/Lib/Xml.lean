import MyStudy.Lib.Bytes

/-!
# XML documents

Reading a document without a document type declaration: characters, references, tags, comments,
sections of character data and processing instructions. A document is well-formed if it can be read;
what is read of it are its tags and the characters between them.
-/

namespace Xml

/-! ### Characters and names -/

def within (ranges : List (Nat × Nat)) (c : Char) : Bool :=
  ranges.any fun range => range.1 ≤ c.toNat && c.toNat ≤ range.2

/-- The characters of documents. -/
def isChar (c : Char) : Bool :=
  within [(0x9, 0xA), (0xD, 0xD), (0x20, 0xD7FF), (0xE000, 0xFFFD), (0x10000, 0x10FFFF)] c

/-- A string of such characters. -/
structure Chars where
  chars : List Char
  valid : ∀ c ∈ chars, isChar c = true

/-- The characters of a literal, which the proof `String.toList_ofList` spells out. -/
def spelled {text : String} {chars : List Char} (_ : text.toList = chars) : List Char := chars

def isSpace (c : Char) : Bool := c = ' ' || c = '\t' || c = '\r' || c = '\n'

def isNameStart (c : Char) : Bool :=
  within [(0x3A, 0x3A), (0x41, 0x5A), (0x5F, 0x5F), (0x61, 0x7A), (0xC0, 0xD6), (0xD8, 0xF6),
    (0xF8, 0x2FF),
    (0x370, 0x37D), (0x37F, 0x1FFF), (0x200C, 0x200D), (0x2070, 0x218F), (0x2C00, 0x2FEF),
    (0x3001, 0xD7FF),
    (0xF900, 0xFDCF), (0xFDF0, 0xFFFD), (0x10000, 0xEFFFF)] c

def isNameChar (c : Char) : Bool :=
  isNameStart c ||
    within [(0x2D, 0x2E), (0x30, 0x39), (0xB7, 0xB7), (0x300, 0x36F), (0x203F, 0x2040)] c

/-- The target of a processing instruction: a name, but not that of the declaration. -/
def isTarget : List Char → Bool
  | [] => false
  | c :: rest =>
    isNameStart c && rest.all isNameChar && (c :: rest).map Char.toLower != ['x', 'm', 'l']

/-- A character by its number. -/
def numbered (code : Nat) : Option Char :=
  if code.isValidChar ∧ isChar (Char.ofNat code) then some (Char.ofNat code) else none

def decimal (digits : List Char) : Option Nat :=
  if digits ≠ [] ∧ digits.all Char.isDigit then
    some (digits.foldl (fun code d => 10 * code + (d.toNat - '0'.toNat)) 0)
  else none

def hexDigit (d : Char) : Option Nat :=
  if '0' ≤ d ∧ d ≤ '9' then some (d.toNat - '0'.toNat)
  else if 'a' ≤ d ∧ d ≤ 'f' then some (d.toNat - 'a'.toNat + 10)
  else if 'A' ≤ d ∧ d ≤ 'F' then some (d.toNat - 'A'.toNat + 10)
  else none

def hexadecimal (digits : List Char) : Option Nat :=
  if digits = [] then none
  else (digits.mapM hexDigit).map fun values => values.foldl (fun code v => 16 * code + v) 0

/-- What a reference stands for, by the text between `&` and `;`. -/
def reference : List Char → Option Char
  | ['l', 't'] => some '<'
  | ['g', 't'] => some '>'
  | ['a', 'm', 'p'] => some '&'
  | ['a', 'p', 'o', 's'] => some '\''
  | ['q', 'u', 'o', 't'] => some '"'
  | '#' :: 'x' :: digits => (hexadecimal digits).bind numbered
  | '#' :: digits => (decimal digits).bind numbered
  | _ => none

/-! ### Reading -/

abbrev Attr := List Char × List Char

/-- What is read of a document. An empty-element tag is told from a start tag and an end tag. -/
inductive Token where
  | start (el : List Char) (attr : List Attr)
  | empty (el : List Char) (attr : List Attr)
  | stop (el : List Char)
  | char (c : Char)
  deriving DecidableEq, Repr

/-- Where in the document a character stands. -/
inductive Mode where
  /-- Between tags, behind so many closing brackets. -/
  | text (brackets : Nat)
  | reference (name : List Char)
  | opened
  | stopTag (el : List Char)
  | stopEnd (el : List Char)
  | startTag (el : List Char)
  | tag (el : List Char) (attr : List Attr) (spaced : Bool)
  | attrName (el : List Char) (attr : List Attr) (name : List Char)
  | attrEq (el : List Char) (attr : List Attr) (name : List Char)
  | attrQuote (el : List Char) (attr : List Attr) (name : List Char)
  | attrValue (el : List Char) (attr : List Attr) (name : List Char) (quote : Char)
      (value : List Char)
  | attrReference (el : List Char) (attr : List Attr) (name : List Char) (quote : Char)
      (value ref : List Char)
  | emptyTag (el : List Char) (attr : List Attr)
  /-- Behind `<!`. -/
  | bang (seen : List Char)
  | comment (dashes : Nat)
  /-- The closing brackets are read when it is known that they do not end the section. -/
  | cdata (brackets : Nat)
  | piTarget (target : List Char)
  | piEnd
  | pi (question : Bool)
  deriving DecidableEq, Repr

/-- The open elements, whether the root has been opened, and the place. -/
structure Reader where
  stack : List (List Char)
  rooted : Bool
  mode : Mode
  deriving DecidableEq, Repr

namespace Reader

def goto (s : Reader) (mode : Mode) : Option (Reader × List Token) := some ({ s with mode }, [])

def give (s : Reader) (mode : Mode) (tokens : List Token) : Option (Reader × List Token) :=
  some ({ s with mode }, tokens)

/-- In a start tag, behind the name or an attribute. -/
def inTag (s : Reader) (el : List Char) (attr : List Attr) (spaced : Bool) (c : Char) :
    Option (Reader × List Token) :=
  if isSpace c then s.goto (.tag el attr true)
  else if c = '>' then some ({ stack := el :: s.stack, rooted := true, mode := .text 0 },
    [.start el attr])
  else if c = '/' then s.goto (.emptyTag el attr)
  else if spaced ∧ isNameStart c then s.goto (.attrName el attr [c])
  else none

/-- Behind the name of an attribute. -/
def atEq (s : Reader) (el : List Char) (attr : List Attr) (name : List Char) (c : Char) :
    Option (Reader × List Token) :=
  if isSpace c then s.goto (.attrEq el attr name)
  else if c = '=' then s.goto (.attrQuote el attr name)
  else none

/-- Behind the name in an end tag. -/
def atStop (s : Reader) (el : List Char) (c : Char) : Option (Reader × List Token) :=
  if isSpace c then s.goto (.stopEnd el)
  else if c = '>' ∧ s.stack.head? = some el then
    some ({ s with stack := s.stack.tail, mode := .text 0 }, [.stop el])
  else none

/-- One character. -/
def step (s : Reader) (c : Char) : Option (Reader × List Token) :=
  match s.mode with
  | .text brackets =>
    if c = '<' then s.goto .opened
    else if s.stack = [] then if isSpace c then s.goto (.text 0) else none
    else if c = '&' then s.goto (.reference [])
    else if c = '>' ∧ brackets = 2 then none
    else s.give (.text (if c = ']' then min 2 (brackets + 1) else 0)) [.char c]
  | .reference name =>
    if c = ';' then (reference name).bind fun d => s.give (.text 0) [.char d]
    else s.goto (.reference (name ++ [c]))
  | .opened =>
    if c = '/' then s.goto (.stopTag [])
    else if c = '!' then s.goto (.bang [])
    else if c = '?' then s.goto (.piTarget [])
    else if isNameStart c ∧ ¬ (s.stack = [] ∧ s.rooted) then s.goto (.startTag [c])
    else none
  | .stopTag el => if isNameChar c then s.goto (.stopTag (el ++ [c])) else s.atStop el c
  | .stopEnd el => s.atStop el c
  | .startTag el => if isNameChar c then s.goto (.startTag (el ++ [c])) else s.inTag el [] false c
  | .tag el attr spaced => s.inTag el attr spaced c
  | .attrName el attr name =>
    if isNameChar c then s.goto (.attrName el attr (name ++ [c])) else s.atEq el attr name c
  | .attrEq el attr name => s.atEq el attr name c
  | .attrQuote el attr name =>
    if isSpace c then s.goto (.attrQuote el attr name)
    else if c = '"' ∨ c = '\'' then s.goto (.attrValue el attr name c [])
    else none
  | .attrValue el attr name quote value =>
    if c = quote then
      if name ∈ attr.map Prod.fst then none else s.goto (.tag el (attr ++ [(name, value)]) false)
    else if c = '<' then none
    else if c = '&' then s.goto (.attrReference el attr name quote value [])
    else s.goto (.attrValue el attr name quote (value ++ [if isSpace c then ' ' else c]))
  | .attrReference el attr name quote value ref =>
    if c = ';' then (reference ref).bind
      fun d => s.goto (.attrValue el attr name quote (value ++ [d]))
    else s.goto (.attrReference el attr name quote value (ref ++ [c]))
  | .emptyTag el attr =>
    if c = '>' then some ({ s with rooted := true, mode := .text 0 }, [.empty el attr]) else none
  | .bang seen =>
    let seen := seen ++ [c]
    if seen = ['-', '-'] then s.goto (.comment 0)
    else if seen = "[CDATA[".toList ∧ s.stack ≠ [] then s.goto (.cdata 0)
    else if seen = ['-'] ∨ seen ∈ "[CDATA".toList.inits then s.goto (.bang seen)
    else none
  | .comment dashes =>
    if dashes = 2 then if c = '>' then s.goto (.text 0) else none
    else s.goto (.comment (if c = '-' then dashes + 1 else 0))
  | .cdata brackets =>
    if c = '>' ∧ brackets = 2 then s.goto (.text 0)
    else if c = ']' then
      if brackets = 2 then s.give (.cdata 2) [.char ']'] else s.goto (.cdata (brackets + 1))
    else s.give (.cdata 0) (List.replicate brackets (.char ']') ++ [.char c])
  | .piTarget target =>
    if c = '?' then if isTarget target then s.goto .piEnd else none
    else if isSpace c then if isTarget target then s.goto (.pi false) else none
    else s.goto (.piTarget (target ++ [c]))
  | .piEnd => if c = '>' then s.goto (.text 0) else none
  | .pi question => if c = '>' ∧ question then s.goto (.text 0) else s.goto (.pi (c = '?'))

/-- All characters of a text. -/
def run (s : Reader) : List Char → Option (Reader × List Token)
  | [] => some (s, [])
  | c :: text => do
    let (s, tokens) ← s.step c
    let (s, more) ← run s text
    some (s, tokens ++ more)

def initial : Reader := ⟨[], false, .text 0⟩

/-- The root has been opened and closed. -/
def done (s : Reader) : Bool := s.stack.isEmpty && s.rooted && s.mode matches .text _

end Reader

/-- The root element, with what may stand before and behind it. -/
def body (text : List Char) : Option (List Token) :=
  match Reader.initial.run text with
  | none => none
  | some (s, tokens) => if s.done then some tokens else none

/-! ### Documents -/

/-- A line may end in a carriage return, alone or before the line feed. -/
def normalizeLines : List Char → List Char
  | [] => []
  | '\r' :: '\n' :: text => '\n' :: normalizeLines text
  | '\r' :: text => '\n' :: normalizeLines text
  | c :: text => c :: normalizeLines text

/-- What stands before `?>`, and what behind it. -/
def untilEnd : List Char → Option (List Char × List Char)
  | [] => none
  | '?' :: '>' :: text => some ([], text)
  | c :: text => (untilEnd text).map fun (front, behind) => (c :: front, behind)

def isVersion (value : List Char) : Bool :=
  "1.".toList.isPrefixOf value && (value.drop 2).all Char.isDigit && 2 < value.length

/-- What the declaration says. The texts that are read are in UTF-8. -/
def isDeclared : List Attr → Bool
  | (name, value) :: rest =>
    name = "version".toList && isVersion value &&
      match rest with
      | [] => true
      | [(name, value)] =>
        name = "encoding".toList && value.map Char.toLower = "utf-8".toList ||
          name = "standalone".toList && (value = "yes".toList || value = "no".toList)
      | [(name, value), (name', value')] =>
        name = "encoding".toList && value.map Char.toLower = "utf-8".toList &&
          name' = "standalone".toList && (value' = "yes".toList || value' = "no".toList)
      | _ => false
  | [] => false

/-- The inside of a declaration is written like the attributes of a tag, without references. -/
def isDeclaration (inside : List Char) : Bool :=
  '&' ∉ inside &&
    match body ("<xml".toList ++ inside ++ "/>".toList) with
    | some [.empty _ attr] => isDeclared attr
    | _ => false

/-- What is behind the declaration, if there is one. -/
def behindDeclaration (text : List Char) : Option (List Char) :=
  match text with
  | '<' :: '?' :: 'x' :: 'm' :: 'l' :: c :: rest =>
    if isSpace c then
      (untilEnd (c :: rest)).bind fun (inside, behind) =>
        if isDeclaration inside then some behind else none
    else some text
  | _ => some text

def document (text : List Char) : Option (List Token) :=
  if text.all isChar then (behindDeclaration (normalizeLines text)).bind body else none

end Xml
