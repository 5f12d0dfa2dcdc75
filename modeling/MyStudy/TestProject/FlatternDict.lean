import MyStudy.Lib.Bytes
import Mathlib.Data.List.AList

/-!
# Flattening a dictionary

`flatternDict.py`: a nested dictionary becomes one of texts, the keys on the way to a value joined
with `/`.
-/
namespace TestProject

/-- A nested dictionary, item by item in the order the loop sees them: a value that is no
dictionary, or one that is. -/
inductive Data (α : Type) where
  | empty
  | value (key : Bytes) (val : α) (rest : Data α)
  | nested (key : Bytes) (val rest : Data α)

/-- The dictionary that is filled. -/
abbrev Rst (α : Type) := AList fun _ : Bytes => α

variable {α : Type} (blank : α)

/-- `flatdict`, where `blank` is the empty text that stands for an empty dictionary. -/
def flatdict : Data α → Bytes → Rst α → Rst α
  | .empty, _, dictRst => dictRst
  | .value curkey curval rest, path, dictRst =>
    flatdict rest path (dictRst.insert (path ++ curkey) curval)
  | .nested curkey .empty rest, path, dictRst =>
    flatdict rest path (dictRst.insert (path ++ curkey) blank)
  | .nested curkey curval rest, path, dictRst =>
    flatdict rest path (flatdict curval (path ++ curkey ++ [47]) dictRst)

/-! ### What a dictionary holds -/

def Data.keys : Data α → List Bytes
  | .empty => []
  | .value key _ rest => key :: rest.keys
  | .nested key _ rest => key :: rest.keys

/-- All keys are without `/`, and no dictionary has one twice. -/
def Data.Plain : Data α → Prop
  | .empty => True
  | .value key _ rest => 47 ∉ key ∧ key ∉ rest.keys ∧ rest.Plain
  | .nested key val rest => 47 ∉ key ∧ key ∉ rest.keys ∧ val.Plain ∧ rest.Plain

instance decidablePlain : ∀ data : Data α, Decidable data.Plain
  | .empty => inferInstanceAs (Decidable True)
  | .value key _ rest =>
    have := decidablePlain rest
    inferInstanceAs (Decidable (47 ∉ key ∧ key ∉ rest.keys ∧ rest.Plain))
  | .nested key val rest =>
    have := decidablePlain val
    have := decidablePlain rest
    inferInstanceAs (Decidable (47 ∉ key ∧ key ∉ rest.keys ∧ val.Plain ∧ rest.Plain))

/-- The leaves with the keys on the way to them. -/
def Data.leaves : Data α → List (List Bytes × α)
  | .empty => []
  | .value key val rest => ([key], val) :: rest.leaves
  | .nested key .empty rest => ([key], blank) :: rest.leaves
  | .nested key val rest => (val.leaves.map fun (path, v) => (key :: path, v)) ++ rest.leaves

/-- What is at the end of these keys: nothing, a dictionary with items in it (`some none`), or a
leaf. -/
def Data.at : Data α → List Bytes → Option (Option α)
  | .empty, _ => none
  | .value key val rest, path =>
    if path.head? = some key then if path = [key] then some (some val) else none else rest.at path
  | .nested key .empty rest, path =>
    if path.head? = some key then if path = [key] then some (some blank) else none else rest.at path
  | .nested key val rest, path =>
    if path.head? = some key then
      if path = [key] then some none else val.at path.tail else rest.at path

/-- The path of a leaf as one text. -/
def joined (path : List Bytes) : Bytes := [47].intercalate path

/-! ### A dictionary inside -/

variable {blank} {key : Bytes} {val rest : Data α}

theorem flatdict_nested (some_ : val ≠ .empty) (path : Bytes) (dictRst : Rst α) :
    flatdict blank (.nested key val rest) path dictRst =
      flatdict blank rest path (flatdict blank val (path ++ key ++ [47]) dictRst) := by
  rw [flatdict]
  exact some_

theorem leaves_nested (some_ : val ≠ .empty) : (Data.nested key val rest).leaves blank =
    ((val.leaves blank).map fun (path, v) => (key :: path, v)) ++ rest.leaves blank := by
  rw [Data.leaves]
  exact some_

theorem at_nested (some_ : val ≠ .empty) (path : List Bytes) :
    (Data.nested key val rest).at blank path =
    if path.head? = some key then if path = [key] then some none else val.at blank path.tail
    else rest.at blank path := by
  rw [Data.at]
  exact some_

theorem leaves_ne_nil (some_ : val ≠ .empty) : val.leaves blank ≠ [] := by
  induction val with
  | empty => exact absurd rfl some_
  | value key v rest _ => exact List.cons_ne_nil _ _
  | nested key inner rest ihInner _ =>
    by_cases empty : inner = .empty
    · subst empty
      exact List.cons_ne_nil _ _
    · rw [leaves_nested empty]
      simp [ihInner empty]

/-! ### The leaves -/

/-- The way to a leaf starts with a key of the dictionary. -/
theorem head_of_mem_leaves {data : Data α} {e : List Bytes × α} (member : e ∈ data.leaves blank) :
    ∃ key ∈ data.keys, ∃ more, e.1 = key :: more := by
  induction data with
  | empty => cases member
  | value key v rest ih =>
    rcases List.mem_cons.mp member with rfl | later
    · exact ⟨key, List.mem_cons_self .., [], rfl⟩
    · obtain ⟨k, inKeys, more⟩ := ih later
      exact ⟨k, List.mem_cons_of_mem _ inKeys, more⟩
  | nested key val rest _ ih =>
    have first_or_later : (∃ more, e.1 = key :: more) ∨ e ∈ rest.leaves blank := by
      -- an empty dictionary is a leaf itself
      by_cases empty : val = .empty
      · subst empty
        rcases List.mem_cons.mp member with rfl | later
        · exact .inl ⟨[], rfl⟩
        · exact .inr later
      · rw [leaves_nested empty] at member
        rcases List.mem_append.mp member with inner | later
        · obtain ⟨⟨path, v⟩, -, rfl⟩ := List.mem_map.mp inner
          exact .inl ⟨path, rfl⟩
        · exact .inr later
    rcases first_or_later with here | later
    · exact ⟨key, List.mem_cons_self .., here⟩
    · obtain ⟨k, inKeys, more⟩ := ih later
      exact ⟨k, List.mem_cons_of_mem _ inKeys, more⟩

theorem ne_nil_of_mem_leaves {data : Data α} {e : List Bytes × α} (member : e ∈ data.leaves blank) :
    e.1 ≠ [] := by
  obtain ⟨key, -, more, same⟩ := head_of_mem_leaves member
  rw [same]
  exact List.cons_ne_nil _ _

theorem not_mem_leaves {key : Bytes} {rest : Data α} (absent : key ∉ rest.keys)
    {path : List Bytes} {v : α} (head : path.head? = some key) : (path, v) ∉ rest.leaves blank := by
  intro member
  obtain ⟨k, inKeys, more, rfl⟩ := head_of_mem_leaves member
  exact absent (Option.some.inj head ▸ inKeys)

/-- An item that is a leaf, in front of the others. -/
theorem mem_leaf_iff (absent : key ∉ rest.keys) (leaf v : α) (path : List Bytes)
    (later : (path, v) ∈ rest.leaves blank ↔ rest.at blank path = some (some v)) :
    (path, v) ∈ ([key], leaf) :: rest.leaves blank ↔
      (if path.head? = some key then
      if path = [key] then some (some leaf) else none else rest.at blank path) =
        some (some v) := by
  rw [List.mem_cons, Prod.mk.injEq]
  split_ifs with head same
  · have other : (path, v) ∉ rest.leaves blank := not_mem_leaves absent head
    subst same
    simp [other, eq_comm]
  · have other : (path, v) ∉ rest.leaves blank := not_mem_leaves absent head
    simp [same, other]
  · rw [← later]
    refine or_iff_right fun this => head ?_
    rw [this.1, List.head?_cons]

/-- Each leaf is found at its path. -/
theorem mem_leaves_iff {data : Data α} (plain : data.Plain) (path : List Bytes) (v : α) :
    (path, v) ∈ data.leaves blank ↔ data.at blank path = some (some v) := by
  induction data generalizing path with
  | empty => exact iff_of_false (nomatch ·) (nomatch ·)
  | value key val rest ih =>
    obtain ⟨-, absent, restPlain⟩ := plain
    rw [Data.leaves, Data.at]
    exact mem_leaf_iff absent val v path (ih restPlain path)
  | nested key val rest ihVal ih =>
    obtain ⟨-, absent, valPlain, restPlain⟩ := plain
    by_cases empty : val = .empty
    · subst empty
      rw [Data.leaves, Data.at]
      exact mem_leaf_iff absent blank v path (ih restPlain path)
    · rw [leaves_nested empty, at_nested empty, List.mem_append, List.mem_map]
      -- the path ends at the key, goes on below it, or starts with another key
      split_ifs with head same
      · have other : (path, v) ∉ rest.leaves blank := not_mem_leaves absent head
        simp only [other, or_false, Option.some.injEq, reduceCtorEq, iff_false]
        rintro ⟨⟨more, w⟩, member, eq⟩
        have last : key :: more = [key] := (Prod.mk.inj eq).1.trans same
        exact ne_nil_of_mem_leaves member (List.cons.inj last).2
      · have other : (path, v) ∉ rest.leaves blank := not_mem_leaves absent head
        obtain ⟨more, rfl⟩ : ∃ more, path = key :: more := by
          cases path with
          | nil => cases head
          | cons k more => exact ⟨more, by rw [Option.some.inj head]⟩
        rw [List.tail_cons, ← ihVal valPlain more]
        simp [other]
      · rw [← ih restPlain path]
        refine or_iff_right ?_
        rintro ⟨⟨more, w⟩, -, eq⟩
        refine head ?_
        rw [← (Prod.mk.inj eq).1, List.head?_cons]

theorem head_of_start {path more : List Bytes} (some_ : path ≠ []) (start : path <+: key :: more) :
    path.head? = some key := by
  obtain ⟨k, path, rfl⟩ := List.exists_cons_of_ne_nil some_
  rw [List.head?_cons, (List.cons_prefix_cons.mp start).1]

/-- The path leads to a dictionary with items: there are leaves below it. -/
def Above (leaves : List (List Bytes × α)) (path : List Bytes) : Prop :=
  path ≠ [] ∧ ∃ e ∈ leaves, path <+: e.1 ∧ path ≠ e.1

theorem not_above (absent : key ∉ rest.keys) {path : List Bytes} (head : path.head? = some key) :
    ¬ Above (rest.leaves blank) path := by
  rintro ⟨some_, e, member, start, -⟩
  obtain ⟨k, inKeys, more, same⟩ := head_of_mem_leaves member
  have : path.head? = some k := head_of_start some_ (same ▸ start)
  exact absent (Option.some.inj (head.symm.trans this) ▸ inKeys)

theorem above_append (front back : List (List Bytes × α)) (path : List Bytes) :
    Above (front ++ back) path ↔ Above front path ∨ Above back path := by
  simp only [Above, List.mem_append, or_and_right, exists_or, and_or_left]

/-- One level down. -/
theorem above_map (key : Bytes) (leaves : List (List Bytes × α)) {more : List Bytes}
    (some_ : more ≠ []) :
    Above (leaves.map fun (path, v) => (key :: path, v)) (key :: more) ↔ Above leaves more := by
  constructor
  · rintro ⟨-, e, member, start, other⟩
    obtain ⟨⟨path, v⟩, inLeaves, rfl⟩ := List.mem_map.mp member
    exact ⟨some_, (path, v), inLeaves, (List.cons_prefix_cons.mp start).2,
      fun eq => other (congrArg (key :: ·) eq)⟩
  · rintro ⟨-, e, inLeaves, start, other⟩
    exact ⟨List.cons_ne_nil _ _, (key :: e.1, e.2), List.mem_map_of_mem inLeaves,
      List.cons_prefix_cons.mpr ⟨rfl, start⟩, fun eq => other (List.cons.inj eq).2⟩

/-- An item that is a leaf, in front of the others, has nothing below it. -/
theorem above_leaf_iff (absent : key ∉ rest.keys) (leaf : α) (path : List Bytes)
    (later : Above (rest.leaves blank) path ↔ rest.at blank path = some none) :
    Above (([key], leaf) :: rest.leaves blank) path ↔
      (if path.head? = some key then
      if path = [key] then some (some leaf) else none else rest.at blank path) =
        some none := by
  -- the only prefixes of one key are the key and nothing at all
  have first : ¬ Above [([key], leaf)] path := by
    rintro ⟨some_, e, member, start, other⟩
    rw [List.mem_singleton.mp member] at start other
    obtain ⟨k, path, rfl⟩ := List.exists_cons_of_ne_nil some_
    obtain ⟨rfl, rest⟩ := List.cons_prefix_cons.mp start
    rw [List.prefix_nil.mp rest] at other
    exact other rfl
  rw [← List.singleton_append, above_append, or_iff_right first]
  split_ifs with head same
  · exact iff_of_false (not_above absent head) (by simp)
  · exact iff_of_false (not_above absent head) (by simp)
  · exact later

theorem above_leaves_iff {data : Data α} (plain : data.Plain) (path : List Bytes) :
    Above (data.leaves blank) path ↔ data.at blank path = some none := by
  induction data generalizing path with
  | empty => exact iff_of_false (fun ⟨_, _, member, _⟩ => nomatch member) (nomatch ·)
  | value key val rest ih =>
    obtain ⟨-, absent, restPlain⟩ := plain
    rw [Data.leaves, Data.at]
    exact above_leaf_iff absent val path (ih restPlain path)
  | nested key val rest ihVal ih =>
    obtain ⟨-, absent, valPlain, restPlain⟩ := plain
    by_cases empty : val = .empty
    · subst empty
      rw [Data.leaves, Data.at]
      exact above_leaf_iff absent blank path (ih restPlain path)
    · rw [leaves_nested empty, at_nested empty, above_append]
      split_ifs with head same
      · subst same
        -- below the key of a dictionary that is not empty there is a leaf
        obtain ⟨e, member⟩ := List.exists_mem_of_ne_nil (val.leaves blank) (leaves_ne_nil empty)
        refine iff_of_true
          (.inl ⟨List.cons_ne_nil _ _, (key :: e.1, e.2), List.mem_map_of_mem member, ?_, ?_⟩) rfl
        · exact List.cons_prefix_cons.mpr ⟨rfl, List.nil_prefix⟩
        · exact fun eq => ne_nil_of_mem_leaves member (List.cons.inj eq).2.symm
      · rw [or_iff_left (not_above absent head)]
        obtain ⟨more, rfl⟩ : ∃ more, path = key :: more := by
          cases path with
          | nil => cases head
          | cons k more => exact ⟨more, by rw [Option.some.inj head]⟩
        rw [List.tail_cons, ← ihVal valPlain more]
        exact above_map key _ fun eq => same (by rw [eq])
      · rw [← ih restPlain path]
        refine or_iff_right ?_
        rintro ⟨some_, e, member, start, -⟩
        obtain ⟨⟨more, w⟩, -, rfl⟩ := List.mem_map.mp member
        exact head (head_of_start some_ start)

/-! ### The paths as texts -/

/-- The keys of a path have no `/`. -/
def Keys (path : List Bytes) : Prop := path ≠ [] ∧ ∀ key ∈ path, 47 ∉ key

theorem splitOn_joined {path : List Bytes} (keys : Keys path) : (joined path).splitOn 47 = path :=
  List.splitOn_intercalate 47 keys.2 keys.1

theorem joined_cons (key : Bytes) {path : List Bytes} (some_ : path ≠ []) :
    joined (key :: path) = key ++ 47 :: joined path := by
  rw [joined, List.intercalate_cons_of_ne_nil some_, joined]
  simp

theorem keys_of_mem_leaves {data : Data α} (plain : data.Plain) {e : List Bytes × α}
    (member : e ∈ data.leaves blank) : Keys e.1 := by
  refine ⟨ne_nil_of_mem_leaves member, ?_⟩
  induction data generalizing e with
  | empty => cases member
  | value key val rest ih =>
    obtain ⟨clean, -, restPlain⟩ := plain
    rcases List.mem_cons.mp member with rfl | later
    · simpa using clean
    · exact ih restPlain later
  | nested key val rest ihVal ih =>
    obtain ⟨clean, -, valPlain, restPlain⟩ := plain
    by_cases empty : val = .empty
    · subst empty
      rcases List.mem_cons.mp member with rfl | later
      · simpa using clean
      · exact ih restPlain later
    · rw [leaves_nested empty] at member
      rcases List.mem_append.mp member with inner | later
      · obtain ⟨⟨path, v⟩, inVal, rfl⟩ := List.mem_map.mp inner
        exact List.forall_mem_cons.mpr ⟨clean, ihVal valPlain inVal⟩
      · exact ih restPlain later

theorem nodup_leaf (absent : key ∉ rest.keys) (leaf : α)
    (later : ((rest.leaves blank).map Prod.fst).Nodup) :
    ((([key], leaf) :: rest.leaves blank).map Prod.fst).Nodup := by
  rw [List.map_cons]
  refine List.nodup_cons.mpr ⟨fun member => ?_, later⟩
  obtain ⟨⟨path, v⟩, member, rfl⟩ := List.mem_map.mp member
  exact not_mem_leaves absent rfl member

/-- No two leaves have one path. -/
theorem nodup_leaves {data : Data α} (plain : data.Plain) :
    ((data.leaves blank).map Prod.fst).Nodup := by
  induction data with
  | empty => exact List.nodup_nil
  | value key val rest ih =>
    obtain ⟨-, absent, restPlain⟩ := plain
    exact nodup_leaf absent val (ih restPlain)
  | nested key val rest ihVal ih =>
    obtain ⟨-, absent, valPlain, restPlain⟩ := plain
    by_cases empty : val = .empty
    · subst empty
      exact nodup_leaf absent blank (ih restPlain)
    · rw [leaves_nested empty, List.map_append, List.map_map]
      refine List.nodup_append.mpr ⟨?_, ih restPlain, ?_⟩
      · have below := (ihVal valPlain).map (List.cons_injective (a := key))
        rwa [List.map_map] at below
      · -- the keys of one dictionary are distinct, so its later items have none of these paths
        rintro path first other last rfl
        obtain ⟨⟨more, v⟩, -, rfl⟩ := List.mem_map.mp first
        obtain ⟨⟨path, w⟩, member, same⟩ := List.mem_map.mp last
        have same : path = key :: more := same
        exact not_mem_leaves absent (same ▸ rfl) member

theorem joined_injective {data : Data α} (plain : data.Plain) :
    ((data.leaves blank).map fun e => joined e.1).Nodup := by
  have paths : ((data.leaves blank).map Prod.fst).Nodup := nodup_leaves plain
  rw [List.Nodup, List.pairwise_map] at paths ⊢
  refine paths.imp_of_mem fun {e f} inE inF other same => other ?_
  rw [← splitOn_joined (keys_of_mem_leaves plain inE), same,
    splitOn_joined (keys_of_mem_leaves plain inF)]

/-! ### The dictionary that is filled -/

/-- The leaves go in one by one. -/
theorem flatdict_eq (data : Data α) (path : Bytes) (dictRst : Rst α) :
    flatdict blank data path dictRst =
    (data.leaves blank).foldl (fun dictRst e => dictRst.insert (path ++ joined e.1) e.2)
      dictRst := by
  induction data generalizing path dictRst with
  | empty => rfl
  | value key val rest ih =>
    rw [flatdict, ih, Data.leaves, List.foldl_cons]
    simp [joined]
  | nested key val rest ihVal ih =>
    by_cases empty : val = .empty
    · subst empty
      rw [flatdict, ih, Data.leaves, List.foldl_cons]
      simp [joined]
    · -- the inner call goes over the leaves of the value, with the key in front of their paths
      rw [flatdict_nested empty, ih, ihVal, leaves_nested empty, List.foldl_append, List.foldl_map]
      congr 1
      refine List.foldl_ext _ _ _ fun dictRst e member => ?_
      rw [joined_cons key (ne_nil_of_mem_leaves member)]
      simp

theorem entries_foldl_insert (es : List (Bytes × α)) (dictRst : Rst α)
    (unique : (es.map Prod.fst).Nodup) (new : ∀ e ∈ es, e.1 ∉ dictRst) :
    (es.foldl (fun dictRst e => dictRst.insert e.1 e.2) dictRst).entries.Perm
      ((es.map fun e => ⟨e.1, e.2⟩) ++ dictRst.entries) := by
  induction es generalizing dictRst with
  | nil => exact .refl _
  | cons e es ih =>
    obtain ⟨absent, unique⟩ := List.nodup_cons.mp unique
    have first := new e (List.mem_cons_self ..)
    rw [List.foldl_cons]
    refine (ih _ unique fun f member => ?_).trans ?_
    · rw [AList.mem_insert]
      exact not_or.mpr ⟨fun same => absent (same ▸ List.mem_map_of_mem member),
        new f (List.mem_cons_of_mem _ member)⟩
    · rw [AList.entries_insert_of_notMem first]
      exact List.perm_middle

/-- What was in the dictionary before stays there where no leaf comes in its place. -/
theorem lookup_foldl_insert (es : List (Bytes × α)) (dictRst : Rst α) (key : Bytes) :
    (es.foldl (fun dictRst e => dictRst.insert e.1 e.2) dictRst).lookup key =
      ((es.foldl (fun dictRst e => dictRst.insert e.1 e.2) (∅ : Rst α)).lookup key).or
      (dictRst.lookup key) := by
  induction es using List.reverseRecOn with
  | nil => rw [List.foldl_nil, List.foldl_nil, AList.lookup_empty, Option.none_or]
  | append_singleton es e ih =>
    rw [List.foldl_append, List.foldl_append, List.foldl_cons, List.foldl_cons, List.foldl_nil,
      List.foldl_nil]
    by_cases here : key = e.1
    · rw [here, AList.lookup_insert, AList.lookup_insert, Option.some_or]
    · rw [AList.lookup_insert_ne here, AList.lookup_insert_ne here, ih]

theorem flatdict_root (data : Data α) (dictRst : Rst α) : flatdict blank data [] dictRst =
    ((data.leaves blank).map fun e => (joined e.1, e.2)).foldl
      (fun dictRst e => dictRst.insert e.1 e.2) dictRst := by
  rw [flatdict_eq, List.foldl_map]
  rfl

theorem entries_flatdict {data : Data α} (plain : data.Plain) :
    (flatdict blank data [] ∅).entries.Perm
    ((data.leaves blank).map fun e => ⟨joined e.1, e.2⟩) := by
  have unique : ((data.leaves blank).map fun e => joined e.1).Nodup := joined_injective plain
  have filled := entries_foldl_insert ((data.leaves blank).map fun e => (joined e.1, e.2)) ∅
    (by rwa [List.map_map]) fun e _ => AList.notMem_empty e.1
  rw [AList.empty_entries, List.append_nil, List.map_map] at filled
  rw [flatdict_root]
  exact filled

/-- The order of the items makes no difference to the leaves. -/
theorem leaves_perm {data other : Data α} (plain : data.Plain) (otherPlain : other.Plain)
    (same : ∀ path, other.at blank path = data.at blank path) :
    (other.leaves blank).Perm (data.leaves blank) := by
  refine (List.perm_ext_iff_of_nodup (nodup_leaves otherPlain).of_map
    (nodup_leaves plain).of_map).mpr fun e => ?_
  rw [mem_leaves_iff otherPlain, mem_leaves_iff plain, same]

/-- The result has one entry for each leaf, with its path as the key, and no two leaves have the
same key; what the dictionary had before stays under the other keys, and the order of the items
makes no difference. Where it had nothing, all of the tree can be read from it again, with the empty
text in the place of an empty dictionary. -/
theorem flatdict_leaves (blank : α) (data : Data α) (plain : data.Plain) :
    (flatdict blank data [] ∅).entries.Perm ((data.leaves blank).map fun e => ⟨joined e.1, e.2⟩) ∧
    ((data.leaves blank).map fun e => joined e.1).Nodup ∧
    (∀ (dictRst : Rst α) (key : Bytes), (flatdict blank data [] dictRst).lookup key =
      ((flatdict blank data [] ∅).lookup key).or (dictRst.lookup key)) ∧
    (∀ other : Data α, other.Plain → (∀ path, other.at blank path = data.at blank path) →
      (flatdict blank other [] ∅).entries.Perm (flatdict blank data [] ∅).entries) ∧
    (∀ path v, data.at blank path = some (some v) ↔
      ∃ e ∈ (flatdict blank data [] ∅).entries, e.1.splitOn 47 = path ∧ e.2 = v) ∧
    ∀ path, data.at blank path = some none ↔
      path ≠ [] ∧ ∃ e ∈ (flatdict blank data [] ∅).entries, path <+: e.1.splitOn 47 ∧
      path ≠ e.1.splitOn 47 := by
  have entries : (flatdict blank data [] ∅).entries.Perm
      ((data.leaves blank).map fun e => ⟨joined e.1, e.2⟩) :=
    entries_flatdict plain
  -- an entry of the result is a leaf again once its key is taken apart
  have leaf (P : List Bytes → α → Prop) :
    (∃ e ∈ (flatdict blank data [] ∅).entries, P (e.1.splitOn 47) e.2) ↔
      ∃ e ∈ data.leaves blank, P e.1 e.2 := by
    constructor
    · rintro ⟨e, member, holds⟩
      obtain ⟨f, inLeaves, rfl⟩ := List.mem_map.mp (entries.mem_iff.mp member)
      exact ⟨f, inLeaves, splitOn_joined (keys_of_mem_leaves plain inLeaves) ▸ holds⟩
    · rintro ⟨f, inLeaves, holds⟩
      refine ⟨⟨joined f.1, f.2⟩, entries.mem_iff.mpr (List.mem_map_of_mem inLeaves), ?_⟩
      exact (splitOn_joined (keys_of_mem_leaves plain inLeaves)).symm ▸ holds
  refine ⟨entries, joined_injective plain, fun dictRst key => ?_, fun other otherPlain same => ?_,
    fun path v => ?_, fun path => ?_⟩
  · rw [flatdict_root, flatdict_root]
    exact lookup_foldl_insert _ dictRst key
  · exact (entries_flatdict otherPlain).trans
      (((leaves_perm plain otherPlain same).map _).trans entries.symm)
  · rw [leaf fun p w => p = path ∧ w = v, ← mem_leaves_iff plain path v]
    constructor
    · exact fun member => ⟨(path, v), member, rfl, rfl⟩
    · rintro ⟨e, member, rfl, rfl⟩
      exact member
  · rw [leaf fun p _ => path <+: p ∧ path ≠ p, ← above_leaves_iff plain path]
    rfl

/-- Some of the sample of `main`. -/
def sample : Data Bytes :=
  .nested (ascii "name") (.value (ascii "first") (ascii "One") .empty)
    (.value (ascii "job") (ascii "scout") (.nested (ascii "recent") .empty .empty))

theorem flatdict_leaves_sample :
    (flatdict [] sample [] ∅).entries.Perm ((sample.leaves []).map fun e => ⟨joined e.1, e.2⟩) ∧
    ((sample.leaves []).map fun e => joined e.1).Nodup ∧
    (∀ (dictRst : Rst Bytes) (key : Bytes), (flatdict [] sample [] dictRst).lookup key =
      ((flatdict [] sample [] ∅).lookup key).or (dictRst.lookup key)) ∧
    (∀ other : Data Bytes, other.Plain → (∀ path, other.at [] path = sample.at [] path) →
      (flatdict [] other [] ∅).entries.Perm (flatdict [] sample [] ∅).entries) ∧
    (∀ path v, sample.at [] path = some (some v) ↔
      ∃ e ∈ (flatdict [] sample [] ∅).entries, e.1.splitOn 47 = path ∧ e.2 = v) ∧
    ∀ path, sample.at [] path = some none ↔
      path ≠ [] ∧ ∃ e ∈ (flatdict [] sample [] ∅).entries, path <+: e.1.splitOn 47 ∧
      path ≠ e.1.splitOn 47 :=
  flatdict_leaves [] sample (by decide)

end TestProject
