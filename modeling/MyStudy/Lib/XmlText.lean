import MyStudy.Lib.Xml

/-!
# How text is written in a document

Text without markup reads as it is written. Text that is written otherwise, by references or in
sections, takes at least three characters more than it has.
-/

namespace Xml

/-- A character that text is written with, as it is. -/
def PlainChar (c : Char) : Prop := c ≠ '<' ∧ c ≠ '&' ∧ c ≠ '\r'

/-- A text that can be written as it is. -/
structure Plain (text : List Char) : Prop where
  chars : ∀ c ∈ text, PlainChar c
  open_ : ¬ [']', ']', '>'] <:+: text

instance (c : Char) : Decidable (PlainChar c) := inferInstanceAs (Decidable (_ ∧ _))

namespace Reader

theorem run_append (s : Reader) (front back : List Char) :
    s.run (front ++ back) = (s.run front).bind fun (s', tokens) =>
      (s'.run back).map fun (s'', more) => (s'', tokens ++ more) := by
  induction front generalizing s with
  | nil => simp [run]
  | cons c front ih =>
    simp only [List.cons_append, run, Option.bind_eq_bind]
    cases first : s.step c with
    | none => rfl
    | some result =>
      simp only [Option.bind_some, ih]
      cases result.1.run front with
      | none => rfl
      | some rest =>
        simp only [Option.bind_some]
        cases rest.1.run back with
        | none => rfl
        | some last => simp

/-! ### Text as it is -/

/-- The brackets that a character stands behind, after one more. -/
def bracketsAfter (brackets : Nat) (c : Char) : Nat := if c = ']' then min 2 (brackets + 1) else 0

/-- Whether the end of a section shows up in a text. -/
def closes : Nat → List Char → Bool
  | _, [] => false
  | brackets, c :: text => c = '>' && brackets = 2 || closes (bracketsAfter brackets c) text

theorem run_text (stack : List (List Char)) (rooted : Bool) (brackets : Nat) (text : List Char)
    (inside : stack ≠ []) (plain : ∀ c ∈ text, PlainChar c) :
    run ⟨stack, rooted, .text brackets⟩ text =
      if closes brackets text then none
      else some (⟨stack, rooted, .text (text.foldl bracketsAfter brackets)⟩, text.map .char) := by
  induction text generalizing brackets with
  | nil => rfl
  | cons c text ih =>
    obtain ⟨noTag, noReference, -⟩ := plain c (by simp)
    have rest := ih (bracketsAfter brackets c) fun d member => plain d (by simp [member])
    simp only [run, step, if_neg noTag, if_neg inside, if_neg noReference, closes]
    by_cases ends : c = '>' ∧ brackets = 2
    · simp [ends]
    · rw [if_neg ends]
      have going : (decide (c = '>') && decide (brackets = 2)) = false := by simpa using ends
      simp only [going, Bool.false_or]
      change ((run ⟨stack, rooted, .text (bracketsAfter brackets c)⟩ text).bind _) = _
      rw [rest]
      split <;> simp

theorem closes_replicate (brackets : Nat) (text : List Char) (few : brackets ≤ 2) :
    closes brackets text = true ↔ [']', ']', '>'] <:+: List.replicate brackets ']' ++ text := by
  induction text generalizing brackets with
  | nil =>
    have absent : ¬ [']', ']', '>'] <:+: List.replicate brackets ']' ++ [] := by
      intro inside
      have : '>' ∈ List.replicate brackets ']' ++ [] := inside.subset (by simp)
      simp [List.mem_replicate] at this
    simpa [closes] using absent
  | cons c text ih =>
    by_cases bracket : c = ']'
    · subst bracket
      obtain rfl | rfl | rfl : brackets = 0 ∨ brackets = 1 ∨ brackets = 2 := by omega
      · simpa [closes, bracketsAfter, List.replicate] using ih 1 (by omega)
      · simpa [closes, bracketsAfter, List.replicate] using ih 2 (by omega)
      -- of three brackets the first one is none of the two before the end
      · have third : ¬ [']', ']', '>'] <+: ']' :: ']' :: ']' :: text := by simp
        have later : closes 2 (']' :: text) = closes 2 text := by simp [closes, bracketsAfter]
        have front : List.replicate 2 ']' ++ ']' :: text =
            ']' :: (List.replicate 2 ']' ++ text) := rfl
        rw [later, ih 2 (by omega), front, List.infix_cons_iff]
        exact (or_iff_right third).symm
    · have after := ih 0 (by omega)
      have reset : bracketsAfter brackets c = 0 := if_neg bracket
      obtain rfl | rfl | rfl : brackets = 0 ∨ brackets = 1 ∨ brackets = 2 := by omega
      all_goals
        simp [closes, reset, after, List.replicate, List.infix_cons_iff, List.cons_prefix_cons,
          Ne.symm bracket, @eq_comm _ '>' c]

theorem closes_iff (text : List Char) : closes 0 text = true ↔ [']', ']', '>'] <:+: text :=
  closes_replicate 0 text (Nat.zero_le 2)

end Reader

/-! ### What text costs -/

def attrSize (attr : List Attr) : Nat := (attr.map fun a => a.1.length + a.2.length + 4).sum

/-- The characters that a token is written with at least. -/
def Token.size : Token → Nat
  | .start el attr => el.length + attrSize attr + 2
  | .empty el attr => el.length + attrSize attr + 3
  | .stop el => el.length + 3
  | .char _ => 1

def size (tokens : List Token) : Nat := (tokens.map Token.size).sum

/-- What is read of text that is written as it is. -/
def Clean (tokens : List Token) : Prop := ∀ c, Token.char c ∈ tokens → PlainChar c

/-- The characters since the last token, at least. -/
def Mode.taken : Mode → Nat
  | .text _ => 0
  | .reference name => name.length + 1
  | .opened => 1
  | .stopTag el | .stopEnd el => el.length + 2
  | .startTag el => el.length + 1
  | .tag el attr spaced => el.length + attrSize attr + 1 + spaced.toNat
  | .attrName el attr name | .attrEq el attr name => el.length + attrSize attr + name.length + 2
  | .attrQuote el attr name => el.length + attrSize attr + name.length + 3
  | .attrValue el attr name _ value => el.length + attrSize attr + name.length + value.length + 4
  | .attrReference el attr name _ value ref =>
    el.length + attrSize attr + name.length + value.length + ref.length + 5
  | .emptyTag el attr => el.length + attrSize attr + 2
  | .bang seen => seen.length + 2
  | .comment dashes => dashes + 4
  | .cdata brackets => brackets + 9
  | .piTarget target => target.length + 2
  | .piEnd | .pi _ => 3

/-- Outside of tags and of text that is written as it is. -/
def Mode.aside : Mode → Bool
  | .reference _ | .bang _ | .comment _ | .cdata _ | .piTarget _ | .piEnd | .pi _ => true
  | _ => false

/-- A reference is longer than the character it stands for by three, with its ends. -/
theorem two_le_reference (name : List Char) (c : Char) (read : reference name = some c) :
    2 ≤ name.length := by
  unfold reference at read
  split at read
  case h_7 digits _ =>
    cases digits with
    | nil => simp [decimal] at read
    | cons d digits => simp
  case h_8 => simp at read
  all_goals simp

namespace Reader

/-- What holds of every result. -/
def Every (property : Reader → List Token → Prop) (result : Option (Reader × List Token)) : Prop :=
  ∀ s tokens, result = some (s, tokens) → property s tokens

section Every

variable {property : Reader → List Token → Prop} (s : Reader) (mode : Mode) (tokens : List Token)

@[simp] theorem every_none : Every property none := by simp [Every]

@[simp] theorem every_some : Every property (some (s, tokens)) ↔ property s tokens := by
  simp [Every]

@[simp] theorem every_goto : Every property (s.goto mode) ↔ property { s with mode } [] :=
  every_some _ _

@[simp] theorem every_give :
    Every property (s.give mode tokens) ↔ property { s with mode } tokens :=
  every_some _ _

@[simp] theorem every_ite (p : Prop) [Decidable p] (a b : Option (Reader × List Token)) :
    Every property (if p then a else b) ↔ (p → Every property a) ∧ (¬ p → Every property b) := by
  split <;> simp [*]

@[simp] theorem every_bind {α : Type} (read : Option α) (next : α → Option (Reader × List Token)) :
    Every property (read.bind next) ↔ ∀ d, read = some d → Every property (next d) := by
  cases read <;> simp

end Every

theorem attrSize_append (attr : List Attr) (name value : List Char) :
    attrSize (attr ++ [(name, value)]) = attrSize attr + name.length + value.length + 4 := by
  simp [attrSize]
  omega

@[simp] theorem attrSize_nil : attrSize [] = 0 := rfl

theorem size_append (front back : List Token) : size (front ++ back) = size front + size back := by
  simp [size]

theorem length_of_snoc {seen text : List Char} {c : Char} (same : seen ++ [c] = text) :
    seen.length + 1 = text.length := by
  rw [← same, List.length_append, List.length_singleton]

/-- No character gives more than the characters that were taken for it. -/
theorem step_size (s : Reader) (c : Char) :
    Every (fun s' tokens => size tokens + s'.mode.taken ≤ s.mode.taken + 1) (s.step c) := by
  obtain ⟨stack, rooted, mode⟩ := s
  cases mode
  case bang seen =>
    simp only [step, every_ite, every_goto, every_none, Mode.taken]
    refine ⟨fun same => ?_, fun _ => ⟨fun same => ?_, by simp [size]⟩⟩
    · have := length_of_snoc same
      simp [size] at this ⊢
      omega
    · have := length_of_snoc same.1
      simp [size] at this ⊢
      omega
  all_goals simp [step, inTag, atEq, atStop, Mode.taken, attrSize_append, size, Token.size] <;>
    grind

/-- A reference, a section, a comment or an instruction leaves three characters that give
nothing. -/
theorem step_leaves (s : Reader) (c : Char) (aside : s.mode.aside = true) :
    Every (fun s' tokens =>
      s'.mode.aside = false → size tokens + s'.mode.taken + 3 ≤ s.mode.taken + 1)
      (s.step c) := by
  obtain ⟨stack, rooted, mode⟩ := s
  cases mode
  case reference name =>
    simp only [step, every_ite, every_goto, every_bind, every_give, Mode.taken, size]
    refine ⟨fun _ d read _ => ?_, fun _ => by simp [Mode.aside]⟩
    have := two_le_reference name d read
    simp [Token.size]
    omega
  case bang seen =>
    simp only [step, every_ite, every_goto, every_none, Mode.aside, Bool.true_eq_false,
      false_implies, implies_true, and_self]
  all_goals simp [Mode.aside] at aside
  all_goals simp [step, Mode.taken, Mode.aside, size]

theorem step_clean (s : Reader) (c : Char) (within : s.mode.aside = false) (noReturn : c ≠ '\r') :
    Every (fun _ tokens => Clean tokens) (s.step c) := by
  obtain ⟨stack, rooted, mode⟩ := s
  cases mode
  all_goals simp [Mode.aside] at within
  case text brackets =>
    simp only [step, every_ite, every_goto, every_give, every_none]
    refine ⟨fun _ =>
      by simp [Clean], fun noTag => ⟨fun _ => ⟨fun _ => by simp [Clean], fun _ => trivial⟩, ?_⟩⟩
    refine fun _ =>
      ⟨fun _ => by simp [Clean], fun noReference => ⟨fun _ => trivial, fun _ d member => ?_⟩⟩
    obtain rfl : d = c := by simpa using member
    exact ⟨noTag, noReference, noReturn⟩
  all_goals simp [step, inTag, atEq, atStop, Clean]

/-- What is read of a text costs no more than its characters; if a character is read that text
cannot be written with, it costs three less. -/
theorem run_costs (text : List Char) {s s' : Reader} {tokens : List Token}
    (ok : s.run text = some (s', tokens)) (noReturn : '\r' ∉ text) (ends : s'.mode.aside = false) :
    size tokens + s'.mode.taken + 3 ≤ s.mode.taken + text.length ∨
      s.mode.aside = false ∧ Clean tokens ∧ size tokens + s'.mode.taken ≤
      s.mode.taken + text.length := by
  induction text generalizing s tokens with
  | nil =>
    obtain ⟨rfl, rfl⟩ : s = s' ∧ [] = tokens := by simpa [run] using ok
    exact Or.inr ⟨ends, by simp [Clean], by simp [size]⟩
  | cons c text ih =>
    rw [List.mem_cons, not_or] at noReturn
    simp only [run, Option.bind_eq_bind, Option.bind_eq_some_iff] at ok
    obtain ⟨⟨next, first⟩, stepped, ⟨last, more⟩, ran, same⟩ := ok
    obtain ⟨rfl, rfl⟩ : last = s' ∧ first ++ more = tokens := by simpa using same
    have rest := ih ran noReturn.2
    have sizes := step_size s c next first stepped
    simp only at sizes rest
    rw [size_append, List.length_cons]
    -- what is aside has no token yet, and leaving it costs the three
    cases before : s.mode.aside with
    | true =>
      cases after : next.mode.aside with
      | true =>
        obtain costs | ⟨plain, -⟩ := rest
        · exact Or.inl (by omega)
        · simp [after] at plain
      | false =>
        have leaves := step_leaves s c before next first stepped after
        obtain costs | ⟨-, -, costs⟩ := rest
        · exact Or.inl (by omega)
        · exact Or.inl (by omega)
    | false =>
      have clean := step_clean s c before (Ne.symm noReturn.1) next first stepped
      obtain costs | ⟨-, cleans, costs⟩ := rest
      · exact Or.inl (by omega)
      · refine Or.inr ⟨rfl, fun d member => ?_, by omega⟩
        exact (List.mem_append.mp member).elim (clean d) (cleans d)

end Reader

theorem body_eq_some_iff (text : List Char) (tokens : List Token) :
    body text = some tokens ↔ ∃ s, Reader.initial.run text = some (s, tokens) ∧ s.done = true := by
  rw [body]
  cases Reader.initial.run text with
  | none => simp
  | some result => grind

/-- A document that is hardly longer than what is read of it is written without references and
sections. -/
theorem body_clean {text : List Char} {tokens : List Token} (ok : body text = some tokens)
    (noReturn : '\r' ∉ text) (short : text.length < size tokens + 3) : Clean tokens := by
  obtain ⟨s, ran, done⟩ := (body_eq_some_iff text tokens).mp ok
  have ends : s.mode.aside = false := by
    obtain ⟨stack, rooted, mode⟩ := s
    cases mode <;> simp [Reader.done, Mode.aside] at done ⊢
  obtain costs | ⟨-, clean, -⟩ := Reader.run_costs text ran noReturn ends
  · simp only [Reader.initial, Mode.taken] at costs
    omega
  · exact clean

/-! ### The ends of lines -/

theorem noReturn_normalizeLines (text : List Char) : '\r' ∉ normalizeLines text := by
  fun_induction normalizeLines text <;> simp_all [eq_comm]

theorem length_normalizeLines (text : List Char) : (normalizeLines text).length ≤ text.length := by
  fun_induction normalizeLines text with
  | case1 => exact le_rfl
  | case2 text ih =>
    simp only [List.length_cons]
    omega
  | case3 text _ ih =>
    simp only [List.length_cons]
    omega
  | case4 c text _ _ ih =>
    simp only [List.length_cons]
    omega

theorem normalizeLines_append (front back : List Char) (noReturn : '\r' ∉ front) :
    normalizeLines (front ++ back) = front ++ normalizeLines back := by
  induction front with
  | nil => rfl
  | cons c front ih =>
    rw [List.mem_cons, not_or] at noReturn
    rw [List.cons_append, normalizeLines, ih noReturn.2, List.cons_append]
    · exact fun _ same => absurd same.symm noReturn.1
    · exact fun same => absurd same.symm noReturn.1

theorem normalizeLines_eq_self (text : List Char) (noReturn : '\r' ∉ text) :
    normalizeLines text = text := by
  simpa [normalizeLines] using normalizeLines_append text [] noReturn

end Xml
