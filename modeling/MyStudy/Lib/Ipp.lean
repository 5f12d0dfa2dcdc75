import Mathlib
import MyStudy.Lib.Bytes

/-!
# Operations of the Internet Printing Protocol

What a printer reads: the head of an HTTP request, and behind it an operation with its attributes
and a document.
-/
namespace Ipp

/-! ### Lines -/

def carriageReturn : UInt8 := 13

def lineFeed : UInt8 := 10

def endLine (line : Bytes) : Bytes := line ++ [carriageReturn, lineFeed]

/-- A line, and what stands behind its end. -/
def readLine : Bytes → Option (Bytes × Bytes)
  | [] => none
  | c :: rest =>
    if c = carriageReturn ∧ rest.head? = some lineFeed then some ([], rest.drop 1)
    else (readLine rest).map fun (line, behind) => (c :: line, behind)

/-- The lines in front of an empty one, less than so many. -/
def readLines : Nat → Bytes → Option (List Bytes × Bytes)
  | 0, _ => none
  | most + 1, bytes =>
    match readLine bytes with
    | none => none
    | some (line, rest) =>
      if line = [] then some ([], rest)
      else (readLines most rest).map fun (lines, behind) => (line :: lines, behind)

theorem readLine_endLine {line : Bytes} (rest : Bytes) (clean : carriageReturn ∉ line) :
    readLine (endLine line ++ rest) = some (line, rest) := by
  induction line with
  | nil => simp [endLine, readLine]
  | cons c line ih =>
    rw [List.mem_cons, not_or] at clean
    have other : ¬ (c = carriageReturn ∧ (endLine line ++ rest).head? = some lineFeed) :=
      fun ends =>
      clean.1 ends.1.symm
    change readLine (c :: (endLine line ++ rest)) = some (c :: line, rest)
    rw [readLine, if_neg other, ih clean.2]
    rfl

theorem readLines_endLine {lines : List Bytes} (rest : Bytes) {most : Nat}
    (fewer : lines.length < most) (clean : ∀ line ∈ lines, carriageReturn ∉ line ∧ line ≠ []) :
    readLines most (lines.flatMap endLine ++ (endLine [] ++ rest)) = some (lines, rest) := by
  induction lines generalizing most with
  | nil =>
    obtain ⟨more, rfl⟩ := Nat.exists_eq_add_of_lt fewer
    simp [readLines, readLine_endLine rest List.not_mem_nil]
  | cons line lines ih =>
    obtain ⟨more, rfl⟩ : ∃ more, most = more + 1 := ⟨most - 1, by omega⟩
    have first := clean line List.mem_cons_self
    have others := ih (show lines.length < more by simpa using fewer) fun l member =>
      clean l (List.mem_cons_of_mem _ member)
    rw [List.flatMap_cons, List.append_assoc, readLines, readLine_endLine _ first.1]
    simp [first.2, others]

/-! ### Attributes -/

structure Attribute where
  tag : UInt8
  name : Bytes
  value : Bytes
  deriving DecidableEq

def operationAttributes : UInt8 := 1

def endOfAttributes : UInt8 := 3

/-- A text behind its length. -/
def text (b : Bytes) : Bytes := UInt8.ofNat (b.length / 2 ^ 8) :: UInt8.ofNat b.length :: b

def Attribute.bytes (a : Attribute) : Bytes := a.tag :: (text a.name ++ text a.value)

def readText : Bytes → Option (Bytes × Bytes)
  | high :: low :: rest =>
    if high.toNat * 2 ^ 8 + low.toNat ≤ rest.length then
      some (rest.take (high.toNat * 2 ^ 8 + low.toNat), rest.drop (high.toNat * 2 ^ 8 + low.toNat))
    else none
  | _ => none

/-- The attributes in front of the tag that ends them, less than so many. -/
def readAttributes : Nat → Bytes → Option (List Attribute × Bytes)
  | most + 1, tag :: rest =>
    if tag = endOfAttributes then some ([], rest)
    else
      match readText rest with
      | none => none
      | some (name, rest) =>
        match readText rest with
        | none => none
        | some (value, rest) =>
          (readAttributes most rest).map fun (more, behind) => (⟨tag, name, value⟩ :: more, behind)
  | _, _ => none

/-- An attribute whose texts have lengths that can be written down. -/
def Attribute.Short (a : Attribute) : Prop :=
  a.tag ≠ endOfAttributes ∧ a.name.length < 2 ^ 16 ∧ a.value.length < 2 ^ 16

theorem readText_text {b : Bytes} (rest : Bytes) (short : b.length < 2 ^ 16) :
    readText (text b ++ rest) = some (b, rest) := by
  have length : (UInt8.ofNat (b.length / 2 ^ 8)).toNat * 2 ^ 8 + (UInt8.ofNat b.length).toNat =
      b.length := by
    simp only [UInt8.toNat_ofNat']
    omega
  simp only [text, List.cons_append, readText, length]
  simp

theorem readAttributes_bytes {attributes : List Attribute} (rest : Bytes) {most : Nat}
    (fewer : attributes.length < most) (short : ∀ a ∈ attributes, a.Short) :
    readAttributes most (attributes.flatMap Attribute.bytes ++ endOfAttributes :: rest) =
      some (attributes, rest) := by
  induction attributes generalizing most with
  | nil =>
    obtain ⟨more, rfl⟩ := Nat.exists_eq_add_of_lt fewer
    simp [readAttributes]
  | cons a attributes ih =>
    obtain ⟨more, rfl⟩ : ∃ more, most = more + 1 := ⟨most - 1, by omega⟩
    obtain ⟨other, name, value⟩ := short a List.mem_cons_self
    have others := ih (show attributes.length < more by simpa using fewer) fun b member =>
      short b (List.mem_cons_of_mem _ member)
    simp only [List.flatMap_cons, Attribute.bytes, List.cons_append, List.append_assoc,
      readAttributes, other, if_false, readText_text _ name, readText_text _ value]
    rw [others]
    rfl

/-! ### Requests -/

structure Operation where
  major : UInt8
  minor : UInt8
  code : Bytes
  requestId : Bytes
  attributes : List Attribute
  document : Bytes
  deriving DecidableEq

structure Request where
  line : Bytes
  headers : List Bytes
  operation : Operation
  deriving DecidableEq

def readOperation : Bytes → Option Operation
  | major :: minor :: c0 :: c1 :: i0 :: i1 :: i2 :: i3 :: group :: rest =>
    if group = operationAttributes then
      (readAttributes rest.length rest).map fun (attributes, document) =>
        ⟨major, minor, [c0, c1], [i0, i1, i2, i3], attributes, document⟩
    else none
  | _ => none

def contentLengthField : Bytes := ascii "Content-Length: "

def contentLength (headers : List Bytes) : Option Nat :=
  (headers.find? contentLengthField.isPrefixOf).map
    fun line => numeral 10 (line.drop contentLengthField.length)

/-- A request whose body is as long as its head tells. -/
def readRequest (bytes : Bytes) : Option Request :=
  match readLines bytes.length bytes with
  | some (line :: headers, body) =>
    if contentLength headers = some body.length then
      (readOperation body).map fun operation => ⟨line, headers, operation⟩
    else none
  | _ => none

end Ipp
