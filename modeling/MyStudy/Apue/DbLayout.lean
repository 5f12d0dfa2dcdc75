import MyStudy.Apue.DbMap
import Mathlib.Algebra.BigOperators.Group.Finset.Piecewise
import Mathlib.Algebra.Order.Group.Multiset

/-!
# The layout of the database

The records of all lists together fill both files without a gap, each of them once. What a call can
do is told in six cases, and each keeps this.
-/
namespace Apue

/-! ### What a call can do -/

/-- The data that a call stores. -/
def Call.stored : Call → Option Bytes
  | .fetch _ => none
  | .delete _ => none
  | .store _ data _ => some data

inductive Change (s : Contents) (c : Call) : Contents → Prop where
  | keep : Change s c s
  | delete {pre post : List Rec} {r : Rec} (chain : s (.chain (bucket c.key)) = pre ++ r :: post)
      (key : r.key = c.key) : Change s c ((s.release r).put (bucket c.key) (pre ++ post))
  | reuse {data : Bytes} {pre post : List Rec} {f : Rec} (stores : c.stored = some data)
      (free : s .free = pre ++ f :: post) (keyLen : f.key.length = c.key.length)
      (dataLen : f.data.length = data.length)
      (absent : lookup (s (.chain (bucket c.key))) c.key = none) :
      Change s c (Contents.put (Function.update s .free (pre ++ post)) (bucket c.key)
        ({ f with key := c.key, data } :: s (.chain (bucket c.key))))
  | overwrite {data : Bytes} {pre post : List Rec} {r : Rec} (stores : c.stored = some data)
      (chain : s (.chain (bucket c.key)) = pre ++ r :: post) (key : r.key = c.key)
      (size : data.length = r.data.length) :
      Change s c (s.put (bucket c.key) (pre ++ { r with data } :: post))
  | append {data : Bytes} (stores : c.stored = some data)
      (appended : c.appended s = some (s.fresh c.key data))
      (absent : lookup (s (.chain (bucket c.key))) c.key = none) :
      Change s c (s.append c.key data (s (.chain (bucket c.key))))
  | move {data : Bytes} {pre post : List Rec} {r : Rec} (stores : c.stored = some data)
      (appended : c.appended s = some (s.fresh c.key data))
      (chain : s (.chain (bucket c.key)) = pre ++ r :: post) (key : r.key = c.key) :
      Change s c ((s.release r).append c.key data (pre ++ post))

theorem effect_change (c : Call) (s : Contents) : Change s c (c.effect s) := by
  obtain ⟨rs, same⟩ : ∃ rs, s (.chain (bucket c.key)) = rs := ⟨_, rfl⟩
  cases c with
  | fetch key => exact .keep
  | delete key =>
    change s (.chain (bucket key)) = rs at same
    -- a delete of no record is no change
    cases cut : cutAt (hasKey key) rs with
    | none =>
      have left : (Call.delete key).effect s = s := by simp only [Call.effect, same, cut]
      rw [left]
      exact .keep
    | some parts_ =>
      obtain ⟨pre, r, post⟩ := parts_
      obtain ⟨rfl, keyEq, _⟩ := cutAt_eq_some cut
      have left : (Call.delete key).effect s = (s.release r).put (bucket key) (pre ++ post) := by
        simp only [Call.effect, same, cut]
      rw [left]
      exact .delete same (hasKey_iff.mp keyEq)
  | store key data flag =>
    change s (.chain (bucket key)) = rs at same
    -- the three flags differ only here: what is found decides for `insert`, what is not for
    -- `replace`
    cases cut : cutAt (hasKey key) rs with
    | none =>
      have absent : lookup (s (.chain (bucket key))) key = none := by rw [same, lookup, cut]; rfl
      by_cases replaces : flag = .replace
      · have left : (Call.store key data flag).effect s = s := by
          simp only [Call.effect, same, cut, replaces, if_true]
        rw [left]
        exact .keep
      · have left : (Call.store key data flag).effect s =
            s.insert key data (s (.chain (bucket key))) := by
          simp only [Call.effect, same, cut, replaces, if_false]
        rw [left]
        -- a free record of the sizes is taken before the files grow
        cases cutFree : cutAt (hasSizes key.length (data.length + 1)) (s .free) with
        | none =>
          have appended : (Call.store key data flag).appended s = some (s.fresh key data) := by
            simp only [Call.appended, same, cut, cutFree, ne_eq, replaces, not_false_eq_true,
              and_self, if_true]
          rw [insert_none cutFree]
          exact .append rfl appended absent
        | some parts_ =>
          obtain ⟨pre, f, post⟩ := parts_
          obtain ⟨free, sizes, _⟩ := cutAt_eq_some cutFree
          obtain ⟨keyLen, dataLen⟩ := hasSizes_iff.mp sizes
          rw [insert_some cutFree]
          exact .reuse rfl free keyLen (by omega) absent
    | some parts_ =>
      obtain ⟨pre, r, post⟩ := parts_
      obtain ⟨rfl, keyEq, _⟩ := cutAt_eq_some cut
      have key' := hasKey_iff.mp keyEq
      by_cases inserts : flag = .insert
      · have left : (Call.store key data flag).effect s = s := by
          simp only [Call.effect, same, cut, inserts, if_true]
        rw [left]
        exact .keep
      · -- data of another length cannot stay where they are
        by_cases size : data.length = r.data.length
        · have left : (Call.store key data flag).effect s =
              s.put (bucket key) (pre ++ { r with data } :: post) := by
            simp only [Call.effect, same, cut, inserts, size, if_false, if_true]
          rw [left]
          exact .overwrite rfl same key' size
        · have left : (Call.store key data flag).effect s =
              (s.release r).append key data (pre ++ post) := by
            simp only [Call.effect, same, cut, inserts, size, if_false]
          have appended : (Call.store key data flag).appended s = some (s.fresh key data) := by
            simp only [Call.appended, same, cut, ne_eq, inserts, size, not_false_eq_true, and_self,
              if_true]
          rw [left]
          exact .move rfl appended same key'

/-! ### Parts that a call leaves alone -/

@[simp] theorem put_chain (s : Contents) (b : Fin nhashDef) (rs : List Rec) :
    s.put b rs (.chain b) = rs := Function.update_self _ _ _

theorem put_other (s : Contents) (b : Fin nhashDef) (rs : List Rec) (part : Part)
    (other : part ≠ .chain b) :
    s.put b rs part = s part := Function.update_of_ne other _ _

@[simp] theorem put_free (s : Contents) (b : Fin nhashDef) (rs : List Rec) :
    s.put b rs .free = s .free :=
  put_other s b rs .free (by simp)

@[simp] theorem put_idxEnd (s : Contents) (b : Fin nhashDef) (rs : List Rec) :
    s.put b rs .idxEnd = s .idxEnd := put_other s b rs .idxEnd (by simp)

@[simp] theorem put_datEnd (s : Contents) (b : Fin nhashDef) (rs : List Rec) :
    s.put b rs .datEnd = s .datEnd := put_other s b rs .datEnd (by simp)

theorem release_other (s : Contents) (r : Rec) (part : Part) (other : part ≠ .free) :
    s.release r part = s part := Function.update_of_ne other _ _

@[simp] theorem release_chain (s : Contents) (r : Rec) (b : Fin nhashDef) :
    s.release r (.chain b) = s (.chain b) := release_other s r _ (by simp)

@[simp] theorem release_fresh (s : Contents) (r : Rec) (key data : Bytes) :
    (s.release r).fresh key data = s.fresh key data := by
  rw [Contents.fresh, release_other s r _ (by simp), release_other s r _ (by simp), Contents.fresh]

theorem append_other (s : Contents) (key data : Bytes) (rs : List Rec) (b : Fin nhashDef)
    (other : b ≠ bucket key) : s.append key data rs (.chain b) = s (.chain b) := by
  rw [Contents.append, put_other _ _ _ _ (by simpa using other), Function.update_of_ne (by simp),
    Function.update_of_ne (by simp)]

@[simp] theorem append_free (s : Contents) (key data : Bytes) (rs : List Rec) :
    s.append key data rs .free = s .free := by
  rw [Contents.append, put_free, Function.update_of_ne (by simp), Function.update_of_ne (by simp)]

@[simp] theorem append_idxEnd (s : Contents) (key data : Bytes) (rs : List Rec) :
    s.append key data rs .idxEnd = s .idxEnd + (s.fresh key data).size := by
  rw [Contents.append, put_idxEnd, Function.update_self]

@[simp] theorem append_datEnd (s : Contents) (key data : Bytes) (rs : List Rec) :
    s.append key data rs .datEnd = s .datEnd + (data.length + 1) := by
  rw [Contents.append, put_datEnd, Function.update_of_ne (by simp), Function.update_self]

/-- A call changes no chain but its own. -/
theorem Change.other {s s' : Contents} {c : Call} (change : Change s c s') (b : Fin nhashDef)
    (other : b ≠ bucket c.key) : s' (.chain b) = s (.chain b) := by
  have apart : Part.chain b ≠ .chain (bucket c.key) := by simpa using other
  cases change with
  | keep => rfl
  | delete => rw [put_other _ _ _ _ apart, release_chain]
  | reuse => rw [put_other _ _ _ _ apart, Function.update_of_ne (by simp)]
  | overwrite => rw [put_other _ _ _ _ apart]
  | append => rw [append_other _ _ _ _ _ other]
  | move => rw [append_other _ _ _ _ _ other, release_chain]

/-! ### The map of all chains -/

def Contents.map (s : Contents) : Mapping := fun key => lookup (s (.chain (bucket key))) key

theorem reply_map (c : Call) (s : Contents) :
    c.reply (s (.chain (bucket c.key))) = (c.onMap s.map).1 := reply_eq c _

theorem map_effect (c : Call) (s : Contents) (fine : s.Fine) :
    (c.effect s).map = (c.onMap s.map).2 := by
  have changed := lookup_effect c s fine
  funext key
  by_cases same : bucket key = bucket c.key
  · have here := congrFun changed key
    rw [Contents.map, same, here]
    by_cases its : key = c.key
    · subst its
      rw [onMap_self, onMap_self]
      rfl
    · rw [onMap_other _ _ _ its, onMap_other _ _ _ its, Contents.map, same]
  · have its : key ≠ c.key := fun its => same (congrArg bucket its)
    rw [Contents.map, (effect_change c s).other _ same, onMap_other _ _ _ its]
    rfl

/-! ### Slots -/

/-- Where a record is in the two files. -/
structure Slot where
  off : Nat
  size : Nat
  datoff : Nat
  datlen : Nat
  deriving DecidableEq, Repr

def Rec.slot (r : Rec) : Slot := ⟨r.off, r.size, r.datoff, r.data.length + 1⟩

/-- Slots one behind the other, from the one pair of ends to the other. -/
def Tiles : Nat → Nat → List Slot → Nat → Nat → Prop
  | n, k, [], n', k' => n = n' ∧ k = k'
  | n, k, slot :: slots, n', k' =>
    slot.off = n ∧ slot.datoff = k ∧ Tiles (n + slot.size) (k + slot.datlen) slots n' k'

theorem Tiles.append {n k n' k' : Nat} {slots : List Slot} (tiles : Tiles n k slots n' k')
    (slot : Slot) (off : slot.off = n') (datoff : slot.datoff = k') :
    Tiles n k (slots ++ [slot]) (n' + slot.size) (k' + slot.datlen) := by
  induction slots generalizing n k with
  | nil =>
    obtain ⟨rfl, rfl⟩ := tiles
    exact ⟨off, datoff, rfl, rfl⟩
  | cons first slots ih => exact ⟨tiles.1, tiles.2.1, ih tiles.2.2⟩

/-- The data file is not much larger than the index file. -/
theorem Tiles.bound {n k n' k' : Nat} {slots : List Slot} (tiles : Tiles n k slots n' k')
    (small : ∀ slot ∈ slots, slot.datlen ≤ datlenMax * slot.size) (start : k ≤ datlenMax * n) :
    n ≤ n' ∧ k' ≤ datlenMax * n' := by
  induction slots generalizing n k with
  | nil =>
    obtain ⟨rfl, rfl⟩ := tiles
    exact ⟨Nat.le_refl _, start⟩
  | cons slot slots ih =>
    obtain ⟨here, later⟩ := List.forall_mem_cons.mp small
    have rest := ih tiles.2.2 later (by rw [Nat.mul_add]; omega)
    exact ⟨by omega, rest.2⟩

/-! ### All records -/

/-- The records of all lists. -/
def Contents.records (s : Contents) : Multiset Rec :=
  (∑ b, (s (.chain b) : Multiset Rec)) + (s .free : Multiset Rec)

theorem mem_records {s : Contents} {r : Rec} :
    r ∈ s.records ↔ (∃ b, r ∈ s (.chain b)) ∨ r ∈ s .free := by
  rw [Contents.records, Multiset.mem_add, Multiset.mem_sum]
  simp

theorem records_put (s : Contents) (b : Fin nhashDef) (rs : List Rec) :
    (s.put b rs).records + (s (.chain b) : Multiset Rec) = s.records + (rs : Multiset Rec) := by
  have chains : (fun b' => ((s.put b rs (.chain b') : List Rec) : Multiset Rec)) =
      Function.update (fun b' => ((s (.chain b') : List Rec) : Multiset Rec)) b rs := by
    funext b'
    by_cases same : b' = b
    · subst same
      rw [put_chain, Function.update_self]
    · rw [put_other _ _ _ _ (by simpa using same), Function.update_of_ne same]
  rw [Contents.records, Contents.records, put_free, chains,
    Finset.sum_update_of_mem (Finset.mem_univ b), ← Finset.add_sum_erase _ _ (Finset.mem_univ b),
    Finset.sdiff_singleton_eq_erase]
  ac_rfl

theorem records_free (s : Contents) (rs : List Rec) :
    Contents.records (Function.update s .free rs) + (s .free : Multiset Rec) =
      s.records + (rs : Multiset Rec) := by
  have chains : (fun b => ((Function.update s .free rs (.chain b) : List Rec) : Multiset Rec)) =
      fun b => ((s (.chain b) : List Rec) : Multiset Rec) := by
    funext b
    rw [Function.update_of_ne (by simp)]
  rw [Contents.records, Contents.records, Function.update_self, chains]
  exact add_right_comm _ _ _

theorem records_congr {s t : Contents} (chains : ∀ b, s (.chain b) = t (.chain b))
    (free : s .free = t .free) : s.records = t.records := by
  rw [Contents.records, Contents.records, free,
    funext fun b => congrArg ((↑) : List Rec → Multiset Rec) (chains b)]

theorem records_nil {s : Contents} (chains : ∀ b, s (.chain b) = []) (free : s .free = []) :
    s.records = 0 := by
  have none_ (b : Fin nhashDef) : ((s (.chain b) : List Rec) : Multiset Rec) = 0 := by
    rw [chains b, Multiset.coe_nil]
  rw [Contents.records, free, Multiset.coe_nil, add_zero]
  exact Finset.sum_eq_zero fun b _ => none_ b

attribute [irreducible] Contents.records

theorem coe_middle (pre post : List Rec) (r : Rec) :
    ((pre ++ r :: post : List Rec) : Multiset Rec) =
      ((pre ++ post : List Rec) : Multiset Rec) + {r} := by
  rw [add_comm, Multiset.singleton_add, Multiset.cons_coe, Multiset.coe_eq_coe]
  exact List.perm_middle

theorem records_remove {s : Contents} {b : Fin nhashDef} {pre post : List Rec} {r : Rec}
    (chain : s (.chain b) = pre ++ r :: post) :
    (s.put b (pre ++ post)).records + {r} = s.records := by
  have put := records_put s b (pre ++ post)
  rw [chain, coe_middle, add_comm _ ({r} : Multiset Rec), ← add_assoc] at put
  exact add_right_cancel put

theorem records_replace {s : Contents} {b : Fin nhashDef} {pre post : List Rec} {r : Rec} (r' : Rec)
    (chain : s (.chain b) = pre ++ r :: post) :
    (s.put b (pre ++ r' :: post)).records + {r} = s.records + {r'} := by
  have put := records_put s b (pre ++ r' :: post)
  rw [chain, coe_middle, coe_middle pre post r', add_comm _ ({r} : Multiset Rec), ← add_assoc,
    add_comm _ ({r'} : Multiset Rec), ← add_assoc] at put
  exact add_right_cancel put

theorem records_release (s : Contents) (r : Rec) :
    (s.release r).records = s.records + {r.blank} := by
  have freed := records_free s (r.blank :: s .free)
  rw [← Multiset.cons_coe, ← Multiset.singleton_add, ← add_assoc] at freed
  exact add_right_cancel freed

theorem records_push (s : Contents) (b : Fin nhashDef) (r : Rec) :
    (s.put b (r :: s (.chain b))).records = s.records + {r} := by
  have put := records_put s b (r :: s (.chain b))
  rw [← Multiset.cons_coe, ← Multiset.singleton_add, ← add_assoc] at put
  exact add_right_cancel put

theorem records_take {s : Contents} {pre post : List Rec} {f : Rec}
    (free : s .free = pre ++ f :: post) :
    Contents.records (Function.update s .free (pre ++ post)) + {f} = s.records := by
  have taken := records_free s (pre ++ post)
  rw [free, coe_middle, add_comm _ ({f} : Multiset Rec), ← add_assoc] at taken
  exact add_right_cancel taken

theorem records_append (s : Contents) (key data : Bytes) (rs : List Rec) :
    (s.append key data rs).records = (s.put (bucket key) (s.fresh key data :: rs)).records := by
  apply records_congr
  · intro b
    by_cases same : b = bucket key
    · subst same
      rw [append_chain, put_chain]
    · rw [append_other _ _ _ _ _ same, put_other _ _ _ _ (by simpa using same)]
  · rw [append_free, put_free]

theorem coe_replaced {front back : List Rec} {S : Multiset Rec} {r r' : Rec}
    (replaced : S + {r} = ((front ++ r :: back : List Rec) : Multiset Rec) + {r'}) :
    ((front ++ r' :: back : List Rec) : Multiset Rec) = S := by
  rw [coe_middle, add_right_comm] at replaced
  rw [coe_middle]
  exact (add_right_cancel replaced).symm

/-- A record that takes the place of another. -/
theorem exists_replaced {recs : List Rec} {S : Multiset Rec} {r r' : Rec}
    (replaced : S + {r} = (recs : Multiset Rec) + {r'}) (member : r ∈ recs)
    (same : r'.slot = r.slot) :
    ∃ recs' : List Rec, (recs' : Multiset Rec) = S ∧ recs'.map Rec.slot = recs.map Rec.slot := by
  obtain ⟨front, back, rfl⟩ := List.append_of_mem member
  refine ⟨front ++ r' :: back, coe_replaced replaced, ?_⟩
  rw [List.map_append, List.map_append, List.map_cons, List.map_cons, same]

/-! ### What stays true -/

/-- What is true of the contents of all parts together. -/
structure Contents.Sane (s : Contents) : Prop where
  fine : s.Fine
  readable : ∀ b, ∀ r ∈ s (.chain b), r.Readable
  layout : ∃ recs : List Rec, (recs : Multiset Rec) = s.records ∧
    Tiles recordsOff 0 (recs.map Rec.slot) (s .idxEnd) (s .datEnd)

/-- A call with texts that the database can keep. -/
structure Call.Proper (c : Call) : Prop where
  nonempty : c.key ≠ []
  keyText : 0 ∉ c.key
  readable : sep ∉ c.key
  storable : ∀ data, c.stored = some data → Storable c.key data

instance (key data : Bytes) : Decidable (Storable key data) :=
  decidable_of_iff (0 ∉ key ∧ 0 ∉ data ∧ data ≠ [] ∧ data.length + 1 ≤ datlenMax)
    ⟨fun ⟨keyText, dataText, nonempty, short⟩ => ⟨keyText, dataText, nonempty, short⟩,
      fun ⟨keyText, dataText, nonempty, short⟩ => ⟨keyText, dataText, nonempty, short⟩⟩

instance (c : Call) : Decidable c.Proper :=
  decidable_of_iff (c.key ≠ [] ∧ 0 ∉ c.key ∧ sep ∉ c.key ∧ ∀ data ∈ c.stored, Storable c.key data)
    ⟨fun ⟨nonempty, keyText, readable, storable⟩ => ⟨nonempty, keyText, readable, storable⟩,
      fun ⟨nonempty, keyText, readable, storable⟩ => ⟨nonempty, keyText, readable, storable⟩⟩

/-- A call whose record, if it appends one, has a text and an offset within the limits. -/
def Call.Roomy (c : Call) (s : Contents) : Prop :=
  ∀ r ∈ c.appended s, r.text.length ≤ idxlenMax ∧ r.off ≤ ptrMax

instance (c : Call) (s : Contents) : Decidable (c.Roomy s) :=
  inferInstanceAs (Decidable (∀ r ∈ c.appended s, r.text.length ≤ idxlenMax ∧ r.off ≤ ptrMax))

theorem Contents.Fine.sound {s : Contents} (fine : s.Fine) : ∀ r ∈ s.records, r.Sound := by
  intro r member
  rcases mem_records.mp member with ⟨b, live⟩ | freed
  · exact ((fine (.chain b)).1 r live).1
  · exact (fine .free r freed).1

theorem Contents.Sane.bound {s : Contents} (sane : s.Sane) :
    ∃ n o : Nat, s .idxEnd = n ∧ s .datEnd = o ∧ recordsOff ≤ n ∧ o ≤ datlenMax * n := by
  obtain ⟨recs, same, tiles⟩ := sane.layout
  refine ⟨_, _, rfl, rfl, tiles.bound ?_ (Nat.zero_le _)⟩
  intro slot member
  obtain ⟨r, among, rfl⟩ := List.mem_map.mp member
  have sound : r.Sound := sane.fine.sound r (by rw [← same]; exact among)
  have size : 1 ≤ r.size := by
    rw [Rec.size, ptrSz]
    omega
  calc r.data.length + 1 ≤ datlenMax * 1 := by
        rw [Nat.mul_one]
        exact sound.data_le
    _ ≤ datlenMax * r.size := Nat.mul_le_mul_left _ size

/-- The line of a key is not too short. -/
theorem text_ge_of_key {r : Rec} (nonempty : r.key ≠ []) : idxlenMin ≤ r.text.length := by
  have keyLong := List.length_pos_of_ne_nil nonempty
  have first := List.length_pos_of_ne_nil (decimal_ne_nil r.datoff)
  have second := List.length_pos_of_ne_nil (decimal_ne_nil (r.data.length + 1))
  rw [Rec.length_text, idxlenMin]
  omega

theorem Contents.Sane.fresh {s : Contents} {c : Call} {data : Bytes} (sane : s.Sane)
    (proper : c.Proper) (roomy : c.Roomy s) (stores : c.stored = some data)
    (appended : c.appended s = some (s.fresh c.key data)) : (s.fresh c.key data).Sound := by
  obtain ⟨short, near⟩ := roomy _ appended
  obtain ⟨n, o, isN, isO, start, bound⟩ := sane.bound
  have storable := proper.storable data stores
  have offset : (s.fresh c.key data).off = n := isN
  have datoff : (s.fresh c.key data).datoff = o := isO
  refine ⟨proper.keyText, storable.dataText, ?_, near, ?_, storable.nonempty, storable.short,
    text_ge_of_key proper.nonempty, short⟩
  · rw [recordsOff, nhashDef, ptrSz] at start
    rw [offset]
    omega
  · rw [offset, ptrMax] at near
    rw [datlenMax] at bound
    rw [datoff]
    omega

theorem Contents.Fine.update {s : Contents} (fine : s.Fine) (part : Part) (x : part.Content)
    (here : part.Fine x) : Contents.Fine (Function.update s part x) := by
  intro part'
  by_cases same : part' = part
  · subst same
    rwa [Function.update_self]
  · rw [Function.update_of_ne same]
    exact fine part'

theorem Contents.Fine.release {s : Contents} {r : Rec} (fine : s.Fine) (sound : r.Sound) :
    (s.release r).Fine :=
  fine.update .free _ (List.forall_mem_cons.mpr ⟨⟨sound.blank, r.blank_blank⟩, fine .free⟩)

theorem Contents.Fine.append {s : Contents} {key data : Bytes} {rs : List Rec} (fine : s.Fine)
    (chain : Part.Fine (.chain (bucket key)) (s.fresh key data :: rs)) :
    (s.append key data rs).Fine := by
  have start : recordsOff ≤ (s .idxEnd : Nat) + (s.fresh key data).size :=
    Nat.le_add_right_of_le (fine .idxEnd)
  exact ((fine.update .datEnd _ trivial).update .idxEnd _ start).update _ _ chain

/-- A record whose key was not there before. -/
theorem absent_key {rs : List Rec} {key : Bytes} (absent : lookup rs key = none) :
    ∀ q ∈ rs, q.key ≠ key := fun q member same =>
  lookup_eq_none.mp absent (List.mem_map.mpr ⟨q, member, same⟩)

/-- A key is not in its chain twice. -/
theorem other_keys {b : Fin nhashDef} {pre post : List Rec} {r : Rec}
    (fine : Part.Fine (.chain b) (pre ++ r :: post)) : ∀ q ∈ pre ++ post, q.key ≠ r.key := by
  intro q member same
  have once := fine.2
  rw [List.map_append, List.map_cons] at once
  have twice := List.nodup_middle.mp once
  rw [List.nodup_cons, ← List.map_append] at twice
  exact twice.1 (List.mem_map.mpr ⟨q, member, same⟩)

theorem Change.fine {s s' : Contents} {c : Call} (change : Change s c s') (sane : s.Sane)
    (proper : c.Proper) (roomy : c.Roomy s) : s'.Fine := by
  have fine := sane.fine
  have here := fine (.chain (bucket c.key))
  cases change with
  | keep => exact fine
  | @delete pre post r chain key =>
    rw [chain] at here
    have sound : r.Sound := (here.1 r (by simp)).1
    exact (fine.release sound).update _ _ (here.sublist (sublist_without pre post r))
  -- the free record keeps its place and its sizes, and gets the key and the data
  | @reuse data pre post f stores free keyLen dataLen absent =>
    have listed := fine .free
    rw [free] at listed
    have storable := proper.storable data stores
    have sound : f.Sound := (listed f (by simp)).1
    have soundNew : ({ f with key := c.key, data } : Rec).Sound :=
      sound.other c.key data proper.keyText storable.dataText keyLen.symm dataLen.symm
    refine (fine.update .free _ fun q member => listed q ?_).update _ _
      (here.cons soundNew rfl (absent_key absent))
    exact (sublist_without pre post f).subset member
  | @overwrite data pre post r stores chain key size =>
    rw [chain] at here
    have storable := proper.storable data stores
    have sound : r.Sound := (here.1 r (by simp)).1
    exact fine.update _ _ (here.replace
      (sound.other r.key data sound.keyText storable.dataText rfl size))
  | @append data stores appended absent =>
    exact fine.append (here.cons (sane.fresh proper roomy stores appended) rfl (absent_key absent))
  | @move data pre post r stores appended chain key =>
    rw [chain] at here
    have sound : r.Sound := (here.1 r (by simp)).1
    -- the record that is gone had the key, so the rest of the chain has it not
    have others := other_keys here
    rw [key] at others
    refine (fine.release sound).append ?_
    rw [release_fresh]
    exact (here.sublist (sublist_without pre post r)).cons
      (sane.fresh proper roomy stores appended) rfl
      others

/-- The keys of the chains are the keys of calls. -/
theorem Change.keys {s s' : Contents} {c : Call} (change : Change s c s') (good : Bytes → Prop)
    (own : good c.key) (before : ∀ b, ∀ r ∈ s (.chain b), good r.key) (b : Fin nhashDef) :
    ∀ r ∈ s' (.chain b), good r.key := by
  by_cases same : b = bucket c.key
  · -- only the chain of the key changes
    subst same
    have here := before (bucket c.key)
    cases change with
    | keep => exact here
    | @delete pre post r chain key =>
      rw [chain] at here
      rw [put_chain]
      exact fun q member => here q ((sublist_without pre post r).subset member)
    | @reuse data pre post f stores free keyLen dataLen absent =>
      rw [put_chain]
      exact List.forall_mem_cons.mpr ⟨own, here⟩
    | @overwrite data pre post r stores chain key size =>
      rw [chain] at here
      rw [put_chain]
      intro q member
      rw [List.mem_append, List.mem_cons] at member
      rcases member with front | rfl | back
      · exact here q (by simp [front])
      · exact here r (by simp)
      · exact here q (by simp [back])
    | @append data stores appended absent =>
      rw [append_chain]
      exact List.forall_mem_cons.mpr ⟨own, here⟩
    | @move data pre post r stores appended chain key =>
      rw [chain] at here
      rw [append_chain]
      exact List.forall_mem_cons.mpr ⟨own, fun q member =>
        here q ((sublist_without pre post r).subset member)⟩
  · rw [change.other b same]
    exact before b

theorem slot_other (r : Rec) (key data : Bytes) (keyLen : key.length = r.key.length)
    (dataLen : data.length = r.data.length) : Rec.slot { r with key, data } = r.slot := by
  rw [Rec.slot, Rec.slot, Rec.size, Rec.size, Rec.length_text, Rec.length_text, keyLen, dataLen]

theorem slot_blank (r : Rec) : r.blank.slot = r.slot :=
  slot_other r _ _ (List.length_map _) (List.length_map _)

theorem put_put (s : Contents) (b : Fin nhashDef) (rs ys : List Rec) :
    (s.put b rs).put b ys = s.put b ys :=
  Function.update_idem _ _ _

/-- A new record at the ends of both files. -/
theorem layout_append {s : Contents} {key data : Bytes} {rs recs : List Rec}
    (same : (recs : Multiset Rec) = (s.put (bucket key) rs).records)
    (tiles : Tiles recordsOff 0 (recs.map Rec.slot) (s .idxEnd) (s .datEnd)) :
    ∃ recs : List Rec, (recs : Multiset Rec) = (s.append key data rs).records ∧
      Tiles recordsOff 0 (recs.map Rec.slot) (s.append key data rs .idxEnd)
      (s.append key data rs .datEnd) := by
  refine ⟨recs ++ [s.fresh key data], ?_, ?_⟩
  · have push := records_push (s.put (bucket key) rs) (bucket key) (s.fresh key data)
    rw [put_chain, put_put] at push
    rw [← Multiset.coe_add, same, records_append, push]
    rfl
  · rw [append_idxEnd, append_datEnd, List.map_append]
    exact tiles.append (s.fresh key data).slot rfl rfl

/-- All records still fill the files, each of them once. -/
theorem Change.layout {s s' : Contents} {c : Call} (change : Change s c s')
    (layout : ∃ recs : List Rec, (recs : Multiset Rec) = s.records ∧
      Tiles recordsOff 0 (recs.map Rec.slot) (s .idxEnd) (s .datEnd)) :
    ∃ recs : List Rec, (recs : Multiset Rec) = s'.records ∧
      Tiles recordsOff 0 (recs.map Rec.slot) (s' .idxEnd) (s' .datEnd) := by
  obtain ⟨recs, same, tiles⟩ := layout
  have listed (b : Fin nhashDef) (r : Rec) (live : r ∈ s (.chain b)) : r ∈ recs := by
    rw [← Multiset.mem_coe, same]
    exact mem_records.mpr (.inl ⟨b, live⟩)
  cases change with
  | keep => exact ⟨recs, same, tiles⟩
  | @delete pre post r chain key =>
    -- the record is blanked where it is, so its slot is still filled
    have removed := records_remove (s := s.release r) ((release_chain s r _).trans chain)
    rw [records_release, ← same] at removed
    obtain ⟨recs', same', slots⟩ :=
      exists_replaced removed (listed _ r (by rw [chain]; simp)) (slot_blank r)
    refine ⟨recs', same', ?_⟩
    rw [slots, put_idxEnd, put_datEnd, release_other _ _ _ (by simp), release_other _ _ _ (by simp)]
    exact tiles
  | @reuse data pre post f stores free keyLen dataLen absent =>
    -- the record is taken from the free list and put on the chain: both counts together
    have taken := records_take free
    have push := records_push (Function.update s .free (pre ++ post)) (bucket c.key)
      { f with key := c.key, data }
    rw [Function.update_of_ne (by simp)] at push
    have replaced : (Contents.put (Function.update s .free (pre ++ post)) (bucket c.key)
        ({ f with key := c.key, data } :: s (.chain (bucket c.key)))).records + {f} =
          (recs : Multiset Rec) + {{ f with key := c.key, data }} := by
      rw [push, add_right_comm, taken, same]
    have member : f ∈ recs := by
      rw [← Multiset.mem_coe, same]
      exact mem_records.mpr (.inr (by rw [free]; simp))
    obtain ⟨recs', same', slots⟩ :=
      exists_replaced replaced member (slot_other f c.key data keyLen.symm dataLen.symm)
    refine ⟨recs', same', ?_⟩
    rw [slots, put_idxEnd, put_datEnd, Function.update_of_ne (by simp),
      Function.update_of_ne (by simp)]
    exact tiles
  | @overwrite data pre post r stores chain key size =>
    have replaced := records_replace { r with data } chain
    rw [← same] at replaced
    obtain ⟨recs', same', slots⟩ :=
      exists_replaced replaced (listed _ r (by rw [chain]; simp)) (slot_other r r.key data rfl size)
    refine ⟨recs', same', ?_⟩
    rw [slots, put_idxEnd, put_datEnd]
    exact tiles
  | @append data stores appended absent =>
    refine layout_append ?_ tiles
    rw [same]
    exact congrArg Contents.records (Function.update_eq_self _ _).symm
  | @move data pre post r stores appended chain key =>
    -- the old record stays as a blank one, the new one is behind the end
    have removed := records_remove (s := s.release r) ((release_chain s r _).trans chain)
    rw [records_release, ← same] at removed
    obtain ⟨recs', same', slots⟩ :=
      exists_replaced removed (listed _ r (by rw [chain]; simp)) (slot_blank r)
    refine layout_append same' ?_
    rw [slots, release_other _ _ _ (by simp), release_other _ _ _ (by simp)]
    exact tiles

/-- What is sane stays so. -/
theorem Contents.Sane.effect {s : Contents} {c : Call} (sane : s.Sane) (proper : c.Proper)
    (roomy : c.Roomy s) : (c.effect s).Sane :=
  ⟨(effect_change c s).fine sane proper roomy,
    (effect_change c s).keys (sep ∉ ·) proper.readable sane.readable,
    (effect_change c s).layout sane.layout⟩

/-- A call that appends a record appends the one at the ends. -/
theorem appended_eq {c : Call} {s : Contents} {r : Rec} (appended : c.appended s = some r) :
    ∃ data, c.stored = some data ∧ r = s.fresh c.key data := by
  cases c with
  | fetch key => cases appended
  | delete key => cases appended
  | store key data flag =>
    refine ⟨data, rfl, ?_⟩
    rw [Call.appended] at appended
    split at appended
    · split at appended
      · exact (Option.some.inj appended).symm
      · cases appended
    · split at appended
      · exact (Option.some.inj appended).symm
      · cases appended

/-- Such a call finds all that it relies on. -/
theorem Contents.Sane.fits {s : Contents} {c : Call} (sane : s.Sane) (proper : c.Proper)
    (roomy : c.Roomy s) : c.Fits s := by
  refine ⟨sane.readable _, fun r appended => ?_⟩
  obtain ⟨data, stores, rfl⟩ := appended_eq appended
  have sound := sane.fresh proper roomy stores appended
  exact ⟨sound.text_ge, sound.text_le, sound.off_le, sound.datoff_lt⟩

theorem Call.Proper.valid {c : Call} (proper : c.Proper) : c.Valid := by
  cases c with
  | fetch key => trivial
  | delete key => trivial
  | store key data flag => exact proper.storable data rfl

end Apue
