import MyStudy.Lib.Template
import MyStudy.Lib.XmlText

/-!
# Documents from templates

A template is the text of a document with a name in the place of each text that is to be filled in.

## Main result

`Form.document_iff`: the filled template is a document that reads as the template with the texts in
their places, if and only if every text can be written as it is and every name is found in its own
place.
-/

namespace Xml

open Template (Passes fill puts written)

/-- A name of a template with the markup behind it, and what is read of the markup. -/
structure Part where
  name : List Char
  markup : List Char
  tokens : List Token

/-- What is read of the texts and the markup between them. -/
def readAs : List Part → List (List Char) → List Token
  | part :: parts, text :: texts => text.map .char ++ (part.tokens ++ readAs parts texts)
  | _, _ => []

/-- The markup closes the open elements, with elements between that hold the texts. -/
inductive Continues : List (List Char) → List Part → Prop
  | done : Continues [] []
  | part {el : List Char} {stack next : List (List Char)} {part : Part} {rest : List Char}
      {parts : List Part}
      (tag : part.markup = '<' :: rest)
      (read : Reader.run ⟨el :: stack, true, .opened⟩ rest =
        some (⟨next, true, .text 0⟩, part.tokens))
      (later : Continues next parts) : Continues (el :: stack) (part :: parts)

/-- Whether the markup does so. -/
def continuing : List (List Char) → List Part → Bool
  | [], [] => true
  | el :: stack, part :: parts =>
    match part.markup with
    | '<' :: rest =>
      match Reader.run ⟨el :: stack, true, .opened⟩ rest with
      | some (⟨next, true, .text 0⟩, tokens) => tokens = part.tokens && continuing next parts
      | _ => false
    | _ => false
  | _, _ => false

theorem continues_of_continuing (stack : List (List Char)) (parts : List Part)
    (checked : continuing stack parts = true) : Continues stack parts := by
  fun_induction continuing stack parts with
  | case1 => exact .done
  | case2 el stack part parts rest tag next tokens read ih =>
    rw [Bool.and_eq_true, decide_eq_true_eq] at checked
    exact .part tag (checked.1 ▸ read) (ih checked.2)
  | case3 => cases checked
  | case4 => cases checked
  | case5 => cases checked

def markups (parts : List Part) : List (List Char) := parts.map Part.markup

def names (parts : List Part) : List (List Char) := parts.map Part.name

def tokensSize (parts : List Part) : Nat := (parts.map fun part => size part.tokens).sum

/-- A token that is no character. -/
def Token.isTag : Token → Bool
  | .char _ => false
  | _ => true

theorem plain_of_all {parts : List Part}
    (all : (parts.all fun part => part.name.all fun c => decide (PlainChar c)) = true) :
    ∀ part ∈ parts, ∀ c ∈ part.name, PlainChar c := fun part among c member =>
  of_decide_eq_true (List.all_eq_true.mp (List.all_eq_true.mp all part among) c member)

/-- A template: a declaration, the markup before the first name, and the parts. Names begin with a
mark. -/
structure Form where
  mark : Char
  declaration : List Char
  front : List Char
  opening : List Token
  stack : List (List Char)
  parts : List Part
  declared : ∀ rest, behindDeclaration (declaration ++ rest) = some rest
  opens : Reader.initial.run front = some (⟨stack, true, .text 0⟩, opening)
  continues : Continues stack parts
  tagged : ∀ part ∈ parts, (part.tokens.head?.map Token.isTag) = some true
  named : ∀ part ∈ parts, part.name.head? = some mark
  bounds : ∀ part ∈ parts, ∀ other ∈ parts, Template.Bounds mark part.name.tail other.markup
  unmarked : mark ∉ declaration ++ front
  apart : parts.Pairwise fun e f => ¬ f.name <:+: e.name
  plain : ∀ part ∈ parts, ∀ c ∈ part.name, PlainChar c
  noReturn : '\r' ∉ declaration ++ front ∧ ∀ part ∈ parts, '\r' ∉ part.markup
  valid : (declaration ++ front).all isChar = true ∧
    ∀ part ∈ parts, part.name.all isChar = true ∧ part.markup.all isChar = true
  /-- The markup is written with as few characters as it can be, or nearly so. -/
  tight : front.length + Template.total (markups parts) < size opening + tokensSize parts + 3

/-! ### Reading the parts -/

theorem Reader.run_written {stack : List (List Char)} {parts : List Part}
    (continues : Continues stack parts) (texts : List (List Char))
    (same : texts.length = parts.length) (plain : ∀ text ∈ texts, ∀ c ∈ text, PlainChar c) :
    run ⟨stack, true, .text 0⟩ (written (markups parts) texts) =
      if texts.any (closes 0) then none else some (⟨[], true, .text 0⟩, readAs parts texts) := by
  induction continues generalizing texts with
  | done =>
    obtain rfl := List.length_eq_zero_iff.mp same
    rfl
  | @part el stack next part rest parts tag read later ih =>
    cases texts with
    | nil => simp at same
    | cons text texts =>
      have behind :=
        ih texts (by simpa using same) fun other member => plain other (by simp [member])
      rw [markups, List.map_cons, written, run_append, run_append,
        run_text (el :: stack) true 0 text (by simp) (plain text (by simp))]
      cases closing : closes 0 text with
      | true => simp [closing]
      | false =>
        -- the markup begins with a tag, which ends any run of brackets
        have marked : ∀ brackets, run ⟨el :: stack, true, .text brackets⟩ part.markup =
            some (⟨next, true, .text 0⟩, part.tokens) := by
          intro brackets
          rw [tag, run]
          simp [step, goto, read]
        rw [markups] at behind
        simp only [Bool.false_eq_true, if_false, Option.bind_some, marked, Option.map_some, behind,
          List.any_cons, closing, Bool.false_or]
        split <;> simp [readAs]

/-- A text ends where a tag begins. -/
theorem text_inj (tag : Token) (isTag : tag.isTag = true) (text text' : List Char)
    (rest rest' : List Token)
    (read : text.map Token.char ++ tag :: rest = text'.map Token.char ++ tag :: rest') :
    text = text' ∧ rest = rest' := by
  have noChar : ∀ c, tag ≠ .char c := by
    rintro c rfl
    cases isTag
  induction text generalizing text' with
  | nil =>
    cases text' with
    | nil => exact ⟨rfl, (List.cons.inj read).2⟩
    | cons c text' => exact absurd (List.cons.inj read).1 (noChar c)
  | cons c text ih =>
    cases text' with
    | nil => exact absurd (List.cons.inj read).1.symm (noChar c)
    | cons c' text' =>
      obtain ⟨first, later⟩ := List.cons.inj read
      obtain ⟨texts, rests⟩ := ih text' later
      exact ⟨by rw [Token.char.inj first, texts], rests⟩

theorem readAs_injective (parts : List Part)
    (tagged : ∀ part ∈ parts, (part.tokens.head?.map Token.isTag) = some true)
    (texts texts' : List (List Char)) (same : texts.length = parts.length)
    (same' : texts'.length = parts.length) (read : readAs parts texts = readAs parts texts') :
    texts = texts' := by
  induction parts generalizing texts texts' with
  | nil => rw [List.length_eq_zero_iff.mp same, List.length_eq_zero_iff.mp same']
  | cons part parts ih =>
    obtain ⟨text, texts, rfl⟩ := List.exists_cons_of_length_eq_add_one same
    obtain ⟨text', texts', rfl⟩ := List.exists_cons_of_length_eq_add_one same'
    obtain ⟨tag, more, split, isTag⟩ : ∃ tag more, part.tokens = tag :: more ∧
        tag.isTag = true := by
      have first := tagged part (by simp)
      cases tokens : part.tokens with
      | nil => simp [tokens] at first
      | cons tag more => exact ⟨tag, more, rfl, by simpa [tokens] using first⟩
    simp only [readAs, split, List.cons_append] at read
    obtain ⟨rfl, behind⟩ := text_inj tag isTag text text' _ _ read
    rw [ih (fun other member => tagged other (by simp [member])) texts texts' (by simpa using same)
      (by simpa using same') (List.append_cancel_left behind)]

theorem size_readAs (parts : List Part) (texts : List (List Char))
    (same : texts.length = parts.length) :
    size (readAs parts texts) = tokensSize parts + Template.total texts := by
  induction parts generalizing texts with
  | nil =>
    obtain rfl := List.length_eq_zero_iff.mp same
    rfl
  | cons part parts ih =>
    cases texts with
    | nil => simp at same
    | cons text texts =>
      have chars : size (text.map .char) = text.length := by
        simp [size, Token.size, Function.comp_def]
      rw [readAs, Reader.size_append, Reader.size_append, chars, ih texts (by simpa using same)]
      simp [tokensSize, Template.total]
      omega

theorem length_written (parts : List Part) (texts : List (List Char))
    (same : texts.length = parts.length) :
    (written (markups parts) texts).length =
      Template.total (markups parts) + Template.total texts := by
  induction parts generalizing texts with
  | nil =>
    obtain rfl := List.length_eq_zero_iff.mp same
    rfl
  | cons part parts ih =>
    cases texts with
    | nil => simp at same
    | cons text texts =>
      have rest := ih texts (by simpa using same)
      rw [markups] at rest
      simp only [markups, List.map_cons, written, List.length_append, rest, Template.total,
        List.sum_cons]
      omega

theorem mem_written (parts : List Part) (texts : List (List Char)) (c : Char)
    (member : c ∈ written (markups parts) texts) :
    (∃ part ∈ parts, c ∈ part.markup) ∨ ∃ text ∈ texts, c ∈ text := by
  induction parts generalizing texts with
  | nil => simp [markups, written] at member
  | cons part parts ih =>
    cases texts with
    | nil => simp [markups, written] at member
    | cons text texts =>
      rw [markups, List.map_cons, written, List.mem_append, List.mem_append] at member
      obtain (here | here) | later := member
      · exact Or.inr ⟨text, by simp, here⟩
      · exact Or.inl ⟨part, by simp, here⟩
      · obtain ⟨other, among, inside⟩ | ⟨other, among, inside⟩ := ih texts later
        · exact Or.inl ⟨other, by simp [among], inside⟩
        · exact Or.inr ⟨other, by simp [among], inside⟩

theorem char_mem_readAs (parts : List Part) (texts : List (List Char))
    (same : texts.length = parts.length) (text : List Char) (among : text ∈ texts) (c : Char)
    (member : c ∈ text) :
    Token.char c ∈ readAs parts texts := by
  induction parts generalizing texts with
  | nil =>
    obtain rfl := List.length_eq_zero_iff.mp same
    simp at among
  | cons part parts ih =>
    cases texts with
    | nil => simp at same
    | cons first texts =>
      rw [readAs, List.mem_append, List.mem_append]
      obtain rfl | later := List.mem_cons.mp among
      · exact Or.inl (by simpa using member)
      · exact Or.inr (Or.inr (ih texts (by simpa using same) later))

/-! ### Filling in -/

namespace Form

variable (form : Form)

def text : List Char :=
  form.declaration ++ form.front ++ written (markups form.parts) (names form.parts)

def fields (values : List (List Char)) : List (Template.Field Char) := (names form.parts).zip values

/-- The template with the texts in their places. -/
def document (values : List (List Char)) : List Token := form.opening ++ readAs form.parts values

variable {form} {values : List (List Char)}

theorem name_eq (part : Part) (among : part ∈ form.parts) :
    part.name = form.mark :: part.name.tail :=
  (List.cons_head?_tail (form.named part among)).symm

theorem map_fst_fields (same : values.length = form.parts.length) :
    (form.fields values).map Prod.fst = names form.parts :=
  List.map_fst_zip (by simp [names, same])

theorem map_snd_fields (same : values.length = form.parts.length) :
    (form.fields values).map Prod.snd = values :=
  List.map_snd_zip (by simp [names, same])

theorem distinct_fields (same : values.length = form.parts.length) :
    Template.Distinct (form.fields values) where
  some_ f member := by
    have among : f.1 ∈ names form.parts := map_fst_fields same ▸ List.mem_map_of_mem member
    obtain ⟨part, isPart, name⟩ := List.mem_map.mp among
    rw [← name, name_eq part isPart]
    simp
  apart := by
    have pairs : ((form.fields values).map Prod.fst).Pairwise fun e f => ¬ f <:+: e := by
      rw [map_fst_fields same]
      exact List.pairwise_map.mpr form.apart
    exact List.pairwise_map.mp pairs

theorem fill_text (same : values.length = form.parts.length) :
    fill form.text (form.fields values) = (puts (form.fields values) (names form.parts)).map
      fun texts => form.declaration ++ form.front ++ written (markups form.parts) texts := by
  refine Template.fill_written form.mark _ _ _ ?_ form.unmarked _ (by simp [names, markups])
  intro f member
  have among : f.1 ∈ names form.parts := map_fst_fields same ▸ List.mem_map_of_mem member
  obtain ⟨part, isPart, name⟩ := List.mem_map.mp among
  refine ⟨part.name.tail, by rw [← name, ← name_eq part isPart], fun markup inside => ?_⟩
  obtain ⟨other, isOther, rfl⟩ := List.mem_map.mp inside
  exact form.bounds part isPart other isOther

/-- What is read of the front and the parts. -/
theorem body_parts (texts : List (List Char)) (same : texts.length = form.parts.length)
    (plain : ∀ text ∈ texts, ∀ c ∈ text, PlainChar c) :
    body (form.front ++ written (markups form.parts) texts) =
      if texts.any (Reader.closes 0) then none else some (form.document texts) := by
  rw [body, Reader.run_append, form.opens]
  simp only [Option.bind_some, Reader.run_written form.continues texts same plain]
  by_cases closing : texts.any (Reader.closes 0) = true
  · rw [if_pos closing, if_pos closing]
    rfl
  · rw [if_neg closing, if_neg closing]
    rfl

theorem noReturn_written (texts : List (List Char))
    (plain : ∀ text ∈ texts, ∀ c ∈ text, PlainChar c) :
    '\r' ∉ written (markups form.parts) texts := by
  intro inside
  obtain ⟨part, isPart, here⟩ | ⟨text, among, here⟩ := mem_written form.parts texts _ inside
  · exact form.noReturn.2 part isPart here
  · exact (plain text among _ here).2.2 rfl

theorem document_parts (texts : List (List Char))
    (valid : ∀ text ∈ texts, ∀ c ∈ text, isChar c = true) :
    Xml.document (form.declaration ++ form.front ++ written (markups form.parts) texts) =
      body (form.front ++ normalizeLines (written (markups form.parts) texts)) := by
  have chars : (form.declaration ++ form.front ++ written (markups form.parts) texts).all
      isChar = true := by
    rw [List.all_append, form.valid.1, Bool.true_and, List.all_eq_true]
    intro c member
    obtain ⟨part, isPart, inside⟩ | ⟨text, among, inside⟩ := mem_written form.parts texts c member
    · exact List.all_eq_true.mp (form.valid.2 part isPart).2 c inside
    · exact valid text among c inside
  rw [Xml.document, if_pos chars, normalizeLines_append _ _ form.noReturn.1, List.append_assoc,
    form.declared, Option.bind_some]

/-- Only texts that can be written as they are make the document short enough. -/
theorem plain_of_document (same : values.length = form.parts.length) (texts : List (List Char))
    (sameTexts : texts.length = form.parts.length)
    (totals : Template.total texts = Template.total values)
    (read : body (form.front ++ normalizeLines (written (markups form.parts) texts)) =
      some (form.document values)) :
    ∀ value ∈ values, ∀ c ∈ value, PlainChar c := by
  have noReturn : '\r' ∉ form.front ++ normalizeLines (written (markups form.parts) texts) := by
    rw [List.mem_append, not_or]
    exact ⟨fun inside => form.noReturn.1 (by simp [inside]), noReturn_normalizeLines _⟩
  have short : (form.front ++ normalizeLines (written (markups form.parts) texts)).length <
      size (form.document values) + 3 := by
    have normalized := length_normalizeLines (written (markups form.parts) texts)
    rw [length_written form.parts texts sameTexts] at normalized
    have tight := form.tight
    rw [List.length_append, Form.document, Reader.size_append, size_readAs form.parts values same]
    omega
  have clean := body_clean read noReturn short
  intro value among c member
  exact clean c (List.mem_append_right _
    (char_mem_readAs form.parts values same value among c member))

/-- The filled template reads as the template with the texts in their places if and only if the
texts can be written as they are and the names are found in their own places. -/
theorem document_iff (same : values.length = form.parts.length)
    (valid : ∀ value ∈ values, ∀ c ∈ value, isChar c = true) :
    (∃ text, fill form.text (form.fields values) = some text ∧
      Xml.document text = some (form.document values)) ↔
      (∀ value ∈ values, Plain value) ∧ (form.fields values).Pairwise fun e f => Passes e.2 f := by
  have fillable := Template.puts_iff (form.fields values) (distinct_fields same)
  rw [map_fst_fields same, map_snd_fields same] at fillable
  have snd : ∀ f ∈ form.fields values, f.2 ∈ values := fun f member =>
    @map_snd_fields form _ same ▸ List.mem_map_of_mem member
  rw [fill_text same]
  constructor
  · rintro ⟨text, filled, read⟩
    obtain ⟨texts, put, rfl⟩ := Option.map_eq_some_iff.mp filled
    obtain ⟨length, totals⟩ := Template.total_puts _ _ _ put
    rw [map_fst_fields same, map_snd_fields same] at totals
    have sameTexts : texts.length = form.parts.length := by rw [length, names, List.length_map]
    have validTexts : ∀ text ∈ texts, ∀ c ∈ text, isChar c = true := by
      refine Template.puts_all (isChar · = true) _ _ _ put ?_
        fun f member => valid f.2 (snd f member)
      intro name among
      obtain ⟨part, isPart, rfl⟩ := List.mem_map.mp among
      exact List.all_eq_true.mp (form.valid.2 part isPart).1
    rw [document_parts texts validTexts] at read
    have plain := plain_of_document same texts sameTexts (by omega) read
    have plainTexts : ∀ text ∈ texts, ∀ c ∈ text, PlainChar c := by
      refine Template.puts_all PlainChar _ _ _ put ?_ fun f member => plain f.2 (snd f member)
      intro name among
      obtain ⟨part, isPart, rfl⟩ := List.mem_map.mp among
      exact form.plain part isPart
    rw [normalizeLines_eq_self _ (noReturn_written texts plainTexts),
      body_parts texts sameTexts plainTexts] at read
    -- the texts are read as they are, so they are the values
    split at read
    next => cases read
    next open_ =>
      have sameRead : readAs form.parts texts = readAs form.parts values :=
        List.append_cancel_left (Option.some.inj read)
      obtain rfl := readAs_injective form.parts form.tagged texts values sameTexts same sameRead
      refine ⟨fun value among => ⟨plain value among, fun closing => open_ ?_⟩, fillable.mp put⟩
      exact List.any_eq_true.mpr ⟨value, among, (Reader.closes_iff value).mpr closing⟩
  · rintro ⟨plain, pairs⟩
    refine ⟨_, by rw [fillable.mpr pairs, Option.map_some], ?_⟩
    have plainChars : ∀ value ∈ values, ∀ c ∈ value, PlainChar c :=
      fun value among => (plain value among).chars
    have open_ : ¬ values.any (Reader.closes 0) = true := by
      intro closing
      obtain ⟨value, among, closes⟩ := List.any_eq_true.mp closing
      exact (plain value among).open_ ((Reader.closes_iff value).mp closes)
    rw [document_parts values valid, normalizeLines_eq_self _ (noReturn_written values plainChars),
      body_parts values same plainChars, if_neg open_]

end Form

end Xml
