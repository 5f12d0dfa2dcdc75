import MyStudy.Apue.DbCalls

/-!
# The database as a map

What the calls do to a map from keys to data, and that the lists of records follow it.
-/
namespace Apue

/-! ### The map -/

abbrev Mapping := Bytes → Option Bytes

/-- What a call returns, and what its key has then. -/
def Call.onKey : Call → Option Bytes → Reply × Option Bytes
  | .fetch _, d => (.data d, d)
  | .delete _, none => (.code (-1), none)
  | .delete _, some _ => (.code 0, none)
  | .store _ data .insert, none => (.code 0, some data)
  | .store _ _ .insert, some old => (.code 1, some old)
  | .store _ _ .replace, none => (.code (-1), none)
  | .store _ data .replace, some _ => (.code 0, some data)
  | .store _ data .store, _ => (.code 0, some data)

def Call.onMap (c : Call) (d : Mapping) : Reply × Mapping :=
  ((c.onKey (d c.key)).1, Function.update d c.key (c.onKey (d c.key)).2)

theorem onMap_self (c : Call) (d : Mapping) : (c.onMap d).2 c.key = (c.onKey (d c.key)).2 :=
  Function.update_self _ _ _

theorem onMap_other (c : Call) (d : Mapping) (key : Bytes) (other : key ≠ c.key) :
    (c.onMap d).2 key = d key := Function.update_of_ne other _ _

/-- The replies to calls one after the other. -/
def repliesOnMap : List Call → Mapping → List Reply
  | [], _ => []
  | c :: cs, d => (c.onMap d).1 :: repliesOnMap cs (c.onMap d).2

/-- The map after calls. -/
def mapAfter : List Call → Mapping → Mapping
  | [], d => d
  | c :: cs, d => mapAfter cs (c.onMap d).2

/-! ### What a chain maps -/

def lookup (rs : List Rec) : Mapping :=
  fun key => (cutAt (hasKey key) rs).map fun (_, r, _) => r.data

theorem lookup_cons (r : Rec) (rs : List Rec) :
    lookup (r :: rs) = Function.update (lookup rs) r.key (some r.data) := by
  funext key
  rw [lookup, cutAt]
  by_cases same : key = r.key
  · subst same
    rw [Function.update_self, if_pos (hasKey_iff.mpr rfl)]
    rfl
  · rw [Function.update_of_ne same, if_neg fun there => same (hasKey_iff.mp there).symm, lookup,
      Option.map_map]
    rfl

theorem lookup_eq_none {rs : List Rec} {key : Bytes} :
    lookup rs key = none ↔ key ∉ rs.map Rec.key := by
  rw [lookup, Option.map_eq_none_iff, cutAt_eq_none, List.mem_map]
  constructor
  · rintro none_ ⟨r, member, same⟩
    exact hasKey_eq_false.mp (none_ r member) same
  · intro none_ r member
    exact hasKey_eq_false.mpr fun same => none_ ⟨r, member, same⟩

/-- A record in the middle of a chain. -/
theorem lookup_middle (pre post : List Rec) (r : Rec) (only : r.key ∉ pre.map Rec.key) :
    lookup (pre ++ r :: post) = Function.update (lookup (pre ++ post)) r.key (some r.data) := by
  induction pre with
  | nil => exact lookup_cons r post
  | cons q pre ih =>
    rw [List.map_cons, List.mem_cons, not_or] at only
    rw [List.cons_append, List.cons_append, lookup_cons, lookup_cons, ih only.2,
      Function.update_comm (Ne.symm only.1)]

/-- A record that is taken out of a chain. -/
theorem lookup_without (pre post : List Rec) (r : Rec)
    (once : ((pre ++ r :: post).map Rec.key).Nodup) :
    lookup (pre ++ post) = Function.update (lookup (pre ++ r :: post)) r.key none := by
  rw [List.map_append, List.map_cons] at once
  have twice := List.nodup_middle.mp once
  rw [List.nodup_cons, ← List.map_append] at twice
  have only : r.key ∉ pre.map Rec.key := fun member => twice.1 (by
    rw [List.map_append]
    exact List.mem_append_left _ member)
  rw [lookup_middle pre post r only, Function.update_idem, ← lookup_eq_none.mpr twice.1,
    Function.update_eq_self]

/-! ### What a call does to its chain -/

theorem reply_eq (c : Call) (rs : List Rec) : c.reply rs = (c.onKey (lookup rs c.key)).1 := by
  cases c with
  | fetch key => rfl
  | delete key =>
    rw [Call.reply, Call.key, lookup]
    cases cutAt (hasKey key) rs <;> rfl
  | store key data flag =>
    rw [Call.reply, Call.key, lookup]
    cases flag <;> cases cutAt (hasKey key) rs <;> rfl

theorem append_chain (s : Contents) (key data : Bytes) (rs : List Rec) :
    s.append key data rs (.chain (bucket key)) = s.fresh key data :: rs :=
      Function.update_self _ _ _

theorem insert_chain (s : Contents) (key data : Bytes) (rs : List Rec) :
    ∃ r : Rec, r.key = key ∧ r.data = data ∧ s.insert key data rs (.chain (bucket key)) =
      r :: rs := by
  cases cut : cutAt (hasSizes key.length (data.length + 1)) (s .free) with
  | none =>
    rw [insert_none cut]
    exact ⟨s.fresh key data, rfl, rfl, append_chain s key data rs⟩
  | some parts_ =>
    obtain ⟨pre, f, post⟩ := parts_
    rw [insert_some cut]
    exact ⟨{ f with key, data }, rfl, rfl, Function.update_self _ _ _⟩

theorem lookup_overwrite (s : Contents) (data : Bytes) (pre post : List Rec) (r : Rec)
    (once : ((pre ++ r :: post).map Rec.key).Nodup) :
    lookup (s.overwrite r.key data pre r post (.chain (bucket r.key))) =
      Function.update (lookup (pre ++ r :: post)) r.key (some data) := by
  have only : r.key ∉ pre.map Rec.key := by
    rw [List.map_append, List.nodup_append'] at once
    exact fun member => once.2.2 member (by simp)
  by_cases size : data.length = r.data.length
  · have there : s.overwrite r.key data pre r post (.chain (bucket r.key)) =
        pre ++ { r with data } :: post := by
      rw [Contents.overwrite, if_pos size]
      exact Function.update_self _ _ _
    rw [there, lookup_middle pre post r only, lookup_middle pre post { r with data } only,
      Function.update_idem]
  · have there : s.overwrite r.key data pre r post (.chain (bucket r.key)) =
        (s.release r).fresh r.key data :: (pre ++ post) := by
      rw [Contents.overwrite, if_neg size]
      exact append_chain _ _ _ _
    rw [there, lookup_cons, lookup_middle pre post r only, Function.update_idem]
    rfl

theorem lookup_delete (s : Contents) (key : Bytes) {rs : List Rec}
    (same : s (.chain (bucket key)) = rs) (once : (rs.map Rec.key).Nodup) :
    lookup ((Call.delete key).effect s (.chain (bucket key))) =
      Function.update (lookup rs) key none := by
  cases cut : cutAt (hasKey key) rs with
  | none =>
    have none_ : lookup rs key = none := by rw [lookup, cut]; rfl
    have left : (Call.delete key).effect s = s := by simp only [Call.effect, same, cut]
    rw [left, same, ← none_, Function.update_eq_self]
  | some parts_ =>
    obtain ⟨pre, r, post⟩ := parts_
    obtain ⟨rfl, keyEq, _⟩ := cutAt_eq_some cut
    obtain rfl := hasKey_iff.mp keyEq
    have left : (Call.delete r.key).effect s (.chain (bucket r.key)) = pre ++ post := by
      simp only [Call.effect, same, cut]
      exact Function.update_self _ _ _
    rw [left, lookup_without pre post r once]

/-- A store of a key that no record has. -/
theorem lookup_store_absent (s : Contents) (key data : Bytes) (flag : Flag) {rs : List Rec}
    (same : s (.chain (bucket key)) = rs) (cut : cutAt (hasKey key) rs = none) :
    lookup ((Call.store key data flag).effect s (.chain (bucket key))) =
      Function.update (lookup rs) key (Call.onKey (.store key data flag) none).2 := by
  have none_ : lookup rs key = none := by rw [lookup, cut]; rfl
  by_cases replaces : flag = .replace
  · subst replaces
    have left : (Call.store key data .replace).effect s = s := by
      simp only [Call.effect, same, cut, if_true]
    rw [left, same]
    change _ = Function.update (lookup rs) key none
    rw [← none_, Function.update_eq_self]
  · have left : (Call.store key data flag).effect s = s.insert key data rs := by
      simp only [Call.effect, same, cut, replaces, if_false]
    obtain ⟨r, rfl, rfl, there⟩ := insert_chain s key data rs
    rw [left, there, lookup_cons]
    cases flag with
    | insert => rfl
    | replace => exact absurd rfl replaces
    | store => rfl

/-- A store of the key of a record. -/
theorem lookup_store_found (s : Contents) (data : Bytes) (flag : Flag) {pre post : List Rec}
    {r : Rec} (same : s (.chain (bucket r.key)) = pre ++ r :: post)
    (once : ((pre ++ r :: post).map Rec.key).Nodup)
    (cut : cutAt (hasKey r.key) (pre ++ r :: post) = some (pre, r, post)) :
    lookup ((Call.store r.key data flag).effect s (.chain (bucket r.key))) =
      Function.update (lookup (pre ++ r :: post)) r.key
      (Call.onKey (.store r.key data flag) (some r.data)).2 := by
  have some_ : lookup (pre ++ r :: post) r.key = some r.data := by rw [lookup, cut]; rfl
  by_cases inserts : flag = .insert
  · subst inserts
    have left : (Call.store r.key data .insert).effect s = s := by
      simp only [Call.effect, same, cut, if_true]
    rw [left, same]
    change _ = Function.update (lookup (pre ++ r :: post)) r.key (some r.data)
    rw [← some_, Function.update_eq_self]
  · have left : (Call.store r.key data flag).effect s = s.overwrite r.key data pre r post := by
      simp only [Call.effect, same, cut, inserts, if_false]
      rfl
    rw [left, lookup_overwrite s data pre post r once]
    cases flag with
    | insert => exact absurd rfl inserts
    | replace => rfl
    | store => rfl

/-- A call leaves in its chain what it leaves in the map. -/
theorem lookup_effect (c : Call) (s : Contents) (fine : s.Fine) :
    lookup (c.effect s (.chain (bucket c.key))) =
      (c.onMap (lookup (s (.chain (bucket c.key))))).2 := by
  obtain ⟨rs, same⟩ : ∃ rs, s (.chain (bucket c.key)) = rs := ⟨_, rfl⟩
  have once : (rs.map Rec.key).Nodup := same ▸ (fine (.chain (bucket c.key))).2
  rw [Call.onMap, same]
  cases c with
  | fetch key =>
    change lookup (s (.chain (bucket key))) = Function.update (lookup rs) key (lookup rs key)
    rw [Function.update_eq_self]
    exact congrArg lookup same
  | delete key =>
    -- nothing is left under the key, whether there was something or not
    have gone : (Call.onKey (.delete key) (lookup rs key)).2 = none := by
      cases lookup rs key <;> rfl
    change _ = Function.update (lookup rs) key (Call.onKey (.delete key) (lookup rs key)).2
    rw [gone]
    exact lookup_delete s key same once
  | store key data flag =>
    change _ = Function.update (lookup rs) key (Call.onKey (.store key data flag) (lookup rs key)).2
    cases cut : cutAt (hasKey key) rs with
    | none =>
      have none_ : lookup rs key = none := by rw [lookup, cut]; rfl
      rw [none_]
      exact lookup_store_absent s key data flag same cut
    | some parts_ =>
      obtain ⟨pre, r, post⟩ := parts_
      obtain ⟨rfl, keyEq, _⟩ := cutAt_eq_some cut
      obtain rfl := hasKey_iff.mp keyEq
      have some_ : lookup (pre ++ r :: post) r.key = some r.data := by rw [lookup, cut]; rfl
      rw [some_]
      exact lookup_store_found s data flag same once cut

end Apue
