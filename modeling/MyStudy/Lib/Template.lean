import Mathlib.Algebra.Ring.Nat
import Mathlib.Data.List.Infix

/-!
# Filling in a template

Names in a text are replaced by values, one after the other, each at the first place where it is
found. A name may also be found in a value that was filled in before.

## Main result

`puts_iff`: every value ends up in the place of its name if and only if no value has the name of a
later field in it, unless that field's value is its name.
-/

namespace Template

variable {α : Type} [DecidableEq α]

/-- The first place of a name in a text. -/
def find (name : List α) : List α → Option Nat
  | [] => if name = [] then some 0 else none
  | c :: text => if name.isPrefixOf (c :: text) then some 0 else (find name text).map (· + 1)

/-- Replaces characters from the first place of a name on, if there is one. -/
def replace (text name : List α) (n : Nat) (value : List α) : Option (List α) :=
  (find name text).map fun found => text.take found ++ value ++ text.drop (found + n)

/-! ### One text -/

theorem replace_nil {name : List α} (some_ : name ≠ []) (n : Nat) (value : List α) :
    replace [] name n value = none := by
  simp [replace, find, some_]

theorem replace_cons (c : α) (text name : List α) (n : Nat) (value : List α) :
    replace (c :: text) name n value =
      if name <+: c :: text then some (value ++ (c :: text).drop n)
      else (replace text name n value).map (c :: ·) := by
  simp only [replace, find, List.isPrefixOf_iff_prefix]
  split
  · simp
  · cases find name text with
    | none => rfl
    | some found => simp [Nat.add_right_comm found 1 n]

theorem replace_eq_none_iff {name : List α} (some_ : name ≠ []) (text : List α) (n : Nat)
    (value : List α) :
    replace text name n value = none ↔ ¬ name <:+: text := by
  induction text with
  | nil => simp [replace_nil some_, some_]
  | cons c text ih =>
    rw [replace_cons, List.infix_cons_iff]
    split
    next front => simp [front]
    next other => simp [other, ih]

theorem replace_self (name value : List α) (some_ : name ≠ []) :
    replace name name name.length value = some value := by
  obtain ⟨c, rest, rfl⟩ := List.exists_cons_of_ne_nil some_
  rw [replace_cons, if_pos List.prefix_rfl, List.drop_length, List.append_nil]

/-- A name that is in the front is replaced there. -/
theorem replace_append_left (name value front back : List α) (some_ : name ≠ [])
    (inside : name <:+: front) :
    replace (front ++ back) name name.length value =
      (replace front name name.length value).map (· ++ back) := by
  induction front with
  | nil => exact absurd (List.infix_nil.mp inside) some_
  | cons c front ih =>
    have short := inside.length_le
    have same : name <+: c :: (front ++ back) ↔ name <+: c :: front :=
      ⟨fun long =>
        List.prefix_of_prefix_length_le long (List.prefix_append (c :: front) back) short,
        fun first => first.trans (List.prefix_append (c :: front) back)⟩
    rw [List.cons_append, replace_cons, replace_cons]
    by_cases first : name <+: c :: front
    · rw [if_pos (same.mpr first), if_pos first, ← List.cons_append,
        List.drop_append_of_le_length short]
      simp
    · rw [if_neg (mt same.mp first), if_neg first,
        ih ((List.infix_cons_iff.mp inside).resolve_left first)]
      simp [Option.map_map, Function.comp_def]

/-- A name that is not in the front is replaced behind it, if it cannot reach from one into the
other. -/
theorem replace_append_right (name value front back : List α) (some_ : name ≠ [])
    (outside : ¬ name <:+: front) (n : Nat) (apart : ∀ c ∈ back.head?, c ∉ name) :
    replace (front ++ back) name n value = (replace back name n value).map (front ++ ·) := by
  induction front with
  | nil => simp
  | cons c front ih =>
    rw [List.infix_cons_iff, not_or] at outside
    have other : ¬ name <+: c :: (front ++ back) := by
      intro long
      obtain short | longer := Nat.lt_or_ge front.length name.length
      · have covered : c :: front <+: name :=
          List.prefix_of_prefix_length_le (List.prefix_append (c :: front) back) long short
        obtain ⟨more, rfl⟩ := covered
        rw [← List.cons_append, List.prefix_append_right_inj] at long
        cases more with
        | nil => exact outside.1 (by simp)
        | cons d more =>
          obtain ⟨rest, rfl⟩ := long
          exact apart d (by simp) (by simp)
      · exact outside.1 (List.prefix_of_prefix_length_le long (List.prefix_append (c :: front) back)
          (Nat.le_succ_of_le longer))
    rw [List.cons_append, replace_cons, if_neg other, ih outside.2]
    simp [Option.map_map, Function.comp_def]

/-- A text without the first character of a name is passed over. -/
theorem replace_append_of_head (d : α) (name value front back : List α) (n : Nat)
    (absent : d ∉ front) :
    replace (front ++ back) (d :: name) n value =
      (replace back (d :: name) n value).map (front ++ ·) := by
  induction front with
  | nil => simp
  | cons c front ih =>
    rw [List.mem_cons, not_or] at absent
    have other : ¬ d :: name <+: c :: (front ++ back) := by
      rw [List.cons_prefix_cons]
      exact fun same => absent.1 same.1
    rw [List.cons_append, replace_cons, if_neg other, ih absent.2]
    simp [Option.map_map, Function.comp_def]

theorem length_replace (text name value result : List α)
    (done : replace text name name.length value = some result) :
    result.length + name.length = text.length + value.length := by
  induction text generalizing result with
  | nil =>
    obtain ⟨empty, rfl⟩ : name = [] ∧ value = result := by simpa [replace, find] using done
    simp [empty]
  | cons c text ih =>
    rw [replace_cons] at done
    split at done
    next first =>
      obtain rfl := Option.some.inj done
      have short := first.length_le
      rw [List.length_append, List.length_drop]
      omega
    next =>
      obtain ⟨rest, replaced, rfl⟩ := Option.map_eq_some_iff.mp done
      have := ih rest replaced
      rw [List.length_cons, List.length_cons]
      omega

theorem replace_subset (text name value result : List α) (n : Nat)
    (done : replace text name n value = some result) :
    ∀ c ∈ result, c ∈ text ∨ c ∈ value := by
  obtain ⟨found, -, rfl⟩ := Option.map_eq_some_iff.mp done
  intro c member
  rw [List.mem_append, List.mem_append] at member
  obtain (front | inside) | back := member
  · exact Or.inl (List.mem_of_mem_take front)
  · exact Or.inr inside
  · exact Or.inl (List.mem_of_mem_drop back)

/-! ### Texts between markup -/

/-- Every text with the markup behind it. -/
def written : List (List α) → List (List α) → List α
  | markup :: markups, text :: texts => text ++ markup ++ written markups texts
  | _, _ => []

/-- Replaces the name in the first text it is in. -/
def put (name value : List α) : List (List α) → Option (List (List α))
  | [] => none
  | text :: texts =>
    match replace text name name.length value with
    | some text => some (text :: texts)
    | none => (put name value texts).map (text :: ·)

/-- Markup that cannot be taken for a part of a name. -/
structure Bounds (mark : α) (name markup : List α) : Prop where
  absent : mark ∉ markup
  some_ : markup ≠ []
  apart : ∀ c ∈ markup.head?, c ∉ mark :: name

instance (mark : α) (name markup : List α) : Decidable (Bounds mark name markup) :=
  decidable_of_iff (mark ∉ markup ∧ markup ≠ [] ∧ ∀ c ∈ markup.head?, c ∉ mark :: name)
    ⟨fun ⟨absent, some_, apart⟩ => ⟨absent, some_, apart⟩,
      fun ⟨absent, some_, apart⟩ => ⟨absent, some_, apart⟩⟩

theorem replace_written (mark : α) (name value : List α) (markups texts : List (List α))
    (bounds : ∀ markup ∈ markups, Bounds mark name markup) (same : texts.length = markups.length) :
    replace (written markups texts) (mark :: name) (mark :: name).length value =
      (put (mark :: name) value texts).map (written markups) := by
  induction markups generalizing texts with
  | nil =>
    obtain rfl := List.length_eq_zero_iff.mp same
    simp [written, put, replace_nil]
  | cons markup markups ih =>
    cases texts with
    | nil => simp at same
    | cons text texts =>
      have bound := bounds markup (by simp)
      have rest :=
        ih texts (fun other member => bounds other (by simp [member])) (by simpa using same)
      rw [written, put, List.append_assoc]
      by_cases inside : mark :: name <:+: text
      · rw [replace_append_left _ _ _ _ (by simp) inside]
        cases replaced : replace text (mark :: name) (mark :: name).length value with
        | none => exact absurd inside ((replace_eq_none_iff (by simp) _ _ _).mp replaced)
        | some text' => simp [written]
      · -- the text without the name cannot complete it with the markup behind: that begins with no letter of it
        have head : ∀ c ∈ (markup ++ written markups texts).head?, c ∉ mark :: name := by
          rw [List.head?_append_of_ne_nil _ bound.some_]
          exact bound.apart
        rw [replace_append_right _ _ _ _ (by simp) inside _ head,
          replace_append_of_head _ _ _ _ _ _ bound.absent, rest,
          (replace_eq_none_iff (by simp) _ _ _).mpr inside]
        simp [Option.map_map, Function.comp_def, written]

theorem put_append_left (name value : List α) (front back : List (List α)) (some_ : name ≠ [])
    (inside : ∃ text ∈ front, name <:+: text) :
    put name value (front ++ back) = (put name value front).map (· ++ back) := by
  induction front with
  | nil => simp at inside
  | cons text front ih =>
    rw [List.cons_append, put, put]
    cases replaced : replace text name name.length value with
    | some text' => rfl
    | none =>
      have other := (replace_eq_none_iff some_ _ _ _).mp replaced
      simp [ih (by simpa [other] using inside), Option.map_map, Function.comp_def]

theorem put_append_right (name value : List α) (front back : List (List α)) (some_ : name ≠ [])
    (outside : ∀ text ∈ front, ¬ name <:+: text) :
    put name value (front ++ back) = (put name value back).map (front ++ ·) := by
  induction front with
  | nil => simp
  | cons text front ih =>
    rw [List.cons_append, put, (replace_eq_none_iff some_ _ _ _).mpr (outside text (by simp)),
      ih fun other member => outside other (by simp [member])]
    simp [Option.map_map, Function.comp_def]

/-- What a replacement in one of the texts leaves alone. -/
theorem put_spec (name value : List α) (texts result : List (List α))
    (done : put name value texts = some result) :
    ∃ front text text' back, texts = front ++ text :: back ∧ result = front ++ text' :: back ∧
      replace text name name.length value = some text' := by
  induction texts generalizing result with
  | nil => simp [put] at done
  | cons text texts ih =>
    rw [put] at done
    cases replaced : replace text name name.length value with
    | some text' =>
      rw [replaced] at done
      obtain rfl := Option.some.inj done
      exact ⟨[], text, text', texts, rfl, rfl, replaced⟩
    | none =>
      rw [replaced] at done
      obtain ⟨rest, later, rfl⟩ := Option.map_eq_some_iff.mp done
      obtain ⟨front, old, new, back, rfl, rfl, replaced⟩ := ih rest later
      exact ⟨text :: front, old, new, back, rfl, rfl, replaced⟩

theorem put_name (name value : List α) (texts : List (List α)) (some_ : name ≠ []) :
    put name value (name :: texts) = some (value :: texts) := by
  rw [put, replace_self name value some_]

theorem replace_by_itself (text name : List α) (some_ : name ≠ []) (inside : name <:+: text) :
    replace text name name.length name = some text := by
  induction text with
  | nil => exact absurd (List.infix_nil.mp inside) some_
  | cons c text ih =>
    rw [replace_cons]
    split
    next first =>
      obtain ⟨rest, whole⟩ := first
      rw [← whole, List.drop_left]
    next other => rw [ih ((List.infix_cons_iff.mp inside).resolve_left other), Option.map_some]

theorem put_by_itself (name : List α) (texts : List (List α)) (some_ : name ≠ [])
    (inside : ∃ text ∈ texts, name <:+: text) : put name name texts = some texts := by
  induction texts with
  | nil => simp at inside
  | cons text texts ih =>
    rw [put]
    by_cases first : name <:+: text
    · rw [replace_by_itself text name some_ first]
    · rw [(replace_eq_none_iff some_ _ _ _).mpr first]
      simp [ih (by simpa [first] using inside)]

/-! ### All names -/

/-- A name and the value it is replaced by. -/
abbrev Field (α : Type) := List α × List α

def puts (fields : List (Field α)) (texts : List (List α)) : Option (List (List α)) :=
  fields.foldlM (fun texts f => put f.1 f.2 texts) texts

/-- The fields are filled in, in this order. -/
def fill (text : List α) (fields : List (Field α)) : Option (List α) :=
  fields.foldlM (fun text f => replace text f.1 f.1.length f.2) text

/-- A field is filled in at its own place though this text stands before it. -/
def Passes (text : List α) (f : Field α) : Prop := f.2 = f.1 ∨ ¬ f.1 <:+: text

instance (text : List α) (f : Field α) : Decidable (Passes text f) :=
  inferInstanceAs (Decidable (_ ∨ _))

theorem puts_cons (f : Field α) (fields : List (Field α)) (texts : List (List α)) :
    puts (f :: fields) texts = (put f.1 f.2 texts).bind (puts fields) := rfl

/-- Names are found in the texts only. -/
theorem fill_written (mark : α) (front : List α) (markups : List (List α)) (fields : List (Field α))
    (named : ∀ f ∈ fields, ∃ name, f.1 = mark :: name ∧ ∀ markup ∈ markups, Bounds mark name markup)
    (absent : mark ∉ front) (texts : List (List α)) (same : texts.length = markups.length) :
    fill (front ++ written markups texts) fields =
      (puts fields texts).map fun texts => front ++ written markups texts := by
  induction fields generalizing texts with
  | nil => rfl
  | cons f fields ih =>
    obtain ⟨name, named_, bounds⟩ := named f (by simp)
    have step : replace (front ++ written markups texts) f.1 f.1.length f.2 =
        (put f.1 f.2 texts).map fun texts => front ++ written markups texts := by
      rw [named_, replace_append_of_head mark name f.2 front _ _ absent,
        replace_written mark name f.2 markups texts bounds same]
      simp [Option.map_map, Function.comp_def]
    rw [puts_cons, fill, List.foldlM_cons, step]
    cases first : put f.1 f.2 texts with
    | none => rfl
    | some next =>
      obtain ⟨before, old, new, behind, rfl, rfl, -⟩ := put_spec _ _ _ _ first
      exact ih (fun g member => named g (by simp [member])) _ (by simpa using same)

/-- A text in which no name is found stays. -/
theorem puts_keeps (fields : List (Field α)) (text : List α) (some_ : ∀ f ∈ fields, f.1 ≠ [])
    (other : ∀ f ∈ fields, ¬ f.1 <:+: text) (front back result : List (List α))
    (done : puts fields (front ++ text :: back) = some result) :
    ∃ front' back', result = front' ++ text :: back' ∧ front'.length = front.length := by
  induction fields generalizing front back with
  | nil => exact ⟨front, back, (Option.some.inj done).symm, rfl⟩
  | cons f fields ih =>
    rw [puts_cons, Option.bind_eq_some_iff] at done
    obtain ⟨texts, first, rest⟩ := done
    have later :=
      ih (fun g member => some_ g (by simp [member])) fun g member => other g (by simp [member])
    have nonempty := some_ f (by simp)
    -- the name is replaced in front of the text or behind it
    by_cases inside : ∃ old ∈ front, f.1 <:+: old
    · rw [put_append_left _ _ _ _ nonempty inside, Option.map_eq_some_iff] at first
      obtain ⟨front', replaced, rfl⟩ := first
      obtain ⟨before, old, new, behind, rfl, rfl, -⟩ := put_spec _ _ _ _ replaced
      obtain ⟨front'', back', same, length⟩ := later _ _ rest
      exact ⟨front'', back', same, by simpa using length⟩
    · have outside : ∀ old ∈ front ++ [text], ¬ f.1 <:+: old := by
        intro old member
        obtain before | rfl : old ∈ front ∨ old = text := by simpa using member
        · exact fun found => inside ⟨old, before, found⟩
        · exact other f (by simp)
      rw [List.append_cons, put_append_right _ _ _ _ nonempty outside, Option.map_eq_some_iff]
        at first
      obtain ⟨back', -, rfl⟩ := first
      rw [List.append_assoc] at rest
      exact later _ _ rest

/-- Names that are not parts of the names before them. -/
structure Distinct (fields : List (Field α)) : Prop where
  some_ : ∀ f ∈ fields, f.1 ≠ []
  apart : fields.Pairwise fun e f => ¬ f.1 <:+: e.1

omit [DecidableEq α] in
theorem Distinct.tail {f : Field α} {fields : List (Field α)} (distinct : Distinct (f :: fields)) :
    Distinct fields :=
  ⟨fun g member => distinct.some_ g (by simp [member]), (List.pairwise_cons.mp distinct.apart).2⟩

/-- One field, behind texts that are there already. -/
theorem put_field (f : Field α) (front back : List (List α)) (some_ : f.1 ≠ [])
    (passes : ∀ text ∈ front, Passes text f) :
    put f.1 f.2 (front ++ f.1 :: back) = some (front ++ f.2 :: back) := by
  by_cases inside : ∃ text ∈ front, f.1 <:+: text
  -- its value is its name, and no text changes
  · obtain ⟨text, member, found⟩ := inside
    have same : f.2 = f.1 := (passes text member).resolve_right (not_not.mpr found)
    rw [same]
    exact put_by_itself f.1 _ some_ ⟨text, by simp [member], found⟩
  · have outside : ∀ text ∈ front, ¬ f.1 <:+: text :=
      fun text member found => inside ⟨text, member, found⟩
    rw [put_append_right _ _ _ _ some_ outside, put_name _ _ _ some_]
    rfl

theorem puts_of_passes (fields : List (Field α)) (distinct : Distinct fields)
    (front : List (List α)) (before : ∀ f ∈ fields, ∀ text ∈ front, Passes text f)
    (pairs : fields.Pairwise fun e f => Passes e.2 f) :
    puts fields (front ++ fields.map Prod.fst) = some (front ++ fields.map Prod.snd) := by
  induction fields generalizing front with
  | nil => rfl
  | cons f fields ih =>
    obtain ⟨first, rest⟩ := List.pairwise_cons.mp pairs
    rw [puts_cons, List.map_cons,
      put_field f front _ (distinct.some_ f (by simp)) (before f (by simp)), Option.bind_some,
      List.append_cons, ih distinct.tail]
    · simp
    · intro g member text among
      obtain earlier | rfl : text ∈ front ∨ text = f.2 := by simpa using among
      · exact before g (by simp [member]) text earlier
      · exact first g member
    · exact rest

theorem passes_of_puts (fields : List (Field α)) (distinct : Distinct fields)
    (front last : List (List α)) (same : last.length = front.length)
    (done : puts fields (front ++ fields.map Prod.fst) = some (last ++ fields.map Prod.snd)) :
    (∀ f ∈ fields, ∀ text ∈ front, Passes text f) ∧ fields.Pairwise fun e f => Passes e.2 f := by
  induction fields generalizing front last with
  | nil => simp
  | cons f fields ih =>
    have nonempty := distinct.some_ f (by simp)
    have passes : ∀ text ∈ front, Passes text f := by
      intro text member
      by_contra fails
      rw [Passes, not_or, not_not] at fails
      obtain ⟨other, found⟩ := fails
      -- the value goes to an earlier text, and the name stays where it is
      rw [puts_cons, put_append_left _ _ _ _ nonempty ⟨text, member, found⟩,
        Option.bind_eq_some_iff] at done
      obtain ⟨texts, first, rest⟩ := done
      obtain ⟨front', replaced, rfl⟩ := Option.map_eq_some_iff.mp first
      obtain ⟨before, old, new, behind, rfl, rfl, -⟩ := put_spec _ _ _ _ replaced
      obtain ⟨front'', back', kept, length⟩ := puts_keeps fields f.1 distinct.tail.some_
        (fun g among => (List.pairwise_cons.mp distinct.apart).1 g among) _ _ _ rest
      rw [List.map_cons] at kept
      have places : last.length = front''.length := by rw [same, length]; simp
      have := (List.append_inj kept places).2
      exact other (List.cons.inj this).1
    rw [puts_cons, List.map_cons, put_field f front _ nonempty passes, Option.bind_some,
      List.append_cons, List.map_cons, List.append_cons last] at done
    obtain ⟨before, pairs⟩ :=
      ih distinct.tail (front ++ [f.2]) (last ++ [f.2]) (by simp [same]) done
    refine ⟨?_, List.pairwise_cons.mpr ⟨fun g member => before g member f.2 (by simp), pairs⟩⟩
    intro g member text among
    obtain rfl | later := List.mem_cons.mp member
    · exact passes text among
    · exact before g later text (by simp [among])

/-- Every value is in the place of its name if and only if no value has a later name in it, or only
one that is replaced by itself. -/
theorem puts_iff (fields : List (Field α)) (distinct : Distinct fields) :
    puts fields (fields.map Prod.fst) = some (fields.map Prod.snd) ↔
      fields.Pairwise fun e f => Passes e.2 f := by
  constructor
  · exact fun done => (passes_of_puts fields distinct [] [] rfl done).2
  · exact fun pairs => puts_of_passes fields distinct [] (by simp) pairs

/-! ### Characters -/

def total (texts : List (List α)) : Nat := (texts.map List.length).sum

theorem total_puts (fields : List (Field α)) (texts result : List (List α))
    (done : puts fields texts = some result) :
    result.length = texts.length ∧
      total result + total (fields.map Prod.fst) = total texts + total (fields.map Prod.snd) := by
  induction fields generalizing texts with
  | nil =>
    obtain rfl := Option.some.inj done
    simp
  | cons f fields ih =>
    rw [puts_cons, Option.bind_eq_some_iff] at done
    obtain ⟨next, first, rest⟩ := done
    obtain ⟨front, old, new, back, rfl, rfl, replaced⟩ := put_spec _ _ _ _ first
    obtain ⟨length, totals⟩ := ih _ rest
    have := length_replace _ _ _ _ replaced
    refine ⟨by simpa using length, ?_⟩
    simp only [total, List.map_append, List.map_cons, List.sum_append, List.sum_cons] at totals ⊢
    omega

theorem puts_all (property : α → Prop) (fields : List (Field α)) (texts result : List (List α))
    (done : puts fields texts = some result) (before : ∀ text ∈ texts, ∀ c ∈ text, property c)
    (values : ∀ f ∈ fields, ∀ c ∈ f.2, property c) : ∀ text ∈ result, ∀ c ∈ text, property c := by
  induction fields generalizing texts with
  | nil =>
    obtain rfl := Option.some.inj done
    exact before
  | cons f fields ih =>
    rw [puts_cons, Option.bind_eq_some_iff] at done
    obtain ⟨next, first, rest⟩ := done
    obtain ⟨front, old, new, back, rfl, rfl, replaced⟩ := put_spec _ _ _ _ first
    refine ih _ rest ?_ fun g member => values g (by simp [member])
    intro text member c among
    obtain here | rfl | there : text ∈ front ∨ text = new ∨ text ∈ back := by simpa using member
    · exact before text (by simp [here]) c among
    · obtain was | put := replace_subset _ _ _ _ _ replaced c among
      · exact before old (by simp) c was
      · exact values f (by simp) c put
    · exact before text (by simp [there]) c among

end Template
