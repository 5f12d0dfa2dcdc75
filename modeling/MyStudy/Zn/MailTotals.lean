import Mathlib.Algebra.Order.BigOperators.Group.List
import MyStudy.Zn.FolderPaths
import MyStudy.Zn.Mailbox

/-!
# Mails in a folder and below it

The sorter counts the mails of a folder for all the folders above it. A folder that has mails of its
own keeps the number it has.
-/
namespace Zn

/-! ### Counters -/

namespace MailCounter

/-- The keys of a map stand in order. -/
def Sorted (counter : MailCounter) : Prop := counter.keys.Pairwise (· < ·)

theorem mails_cons (key k n : Int) (rest : MailCounter) :
    mails ((k, n) :: rest) key = if key = k then n else mails rest key := by
  rw [mails, List.lookup_cons]
  split
  next same => rw [if_pos (by simpa using same), Option.getD_some]
  next other => rw [if_neg (by simpa using other), mails]

theorem mails_absent (counter : MailCounter) (key : Int) (absent : key ∉ counter.keys) :
    counter.mails key = 0 := by
  induction counter with
  | nil => rfl
  | cons pair rest ih =>
    rw [keys, List.map_cons, List.mem_cons, not_or] at absent
    rw [mails_cons, if_neg absent.1]
    exact ih absent.2

theorem sorted_cons (k n : Int) (rest : MailCounter) :
    Sorted ((k, n) :: rest) ↔ (∀ key ∈ rest.keys, k < key) ∧ Sorted rest := List.pairwise_cons

theorem mails_put (counter : MailCounter) (key n i : Int) :
    (counter.put key n).mails i = if i = key then n else counter.mails i := by
  induction counter with
  | nil => rw [put, mails_cons]
  | cons pair rest ih =>
    obtain ⟨k, m⟩ := pair
    rw [put]
    split
    · rw [mails_cons]
    · split
      next same =>
        subst same
        rw [mails_cons, mails_cons]
        split <;> rfl
      next other =>
        rw [mails_cons, mails_cons, ih]
        split
        next here => rw [if_neg (by omega)]
        · rfl

theorem mails_add (counter : MailCounter) (key n i : Int) :
    (counter.add key n).mails i =
      if i = key then addInt (counter.mails i) n else counter.mails i := by
  rw [add, mails_put]
  split
  next same => rw [same]
  · rfl

theorem mem_keys_insertAll_iff (counter others : MailCounter) (i : Int) :
    i ∈ (counter.insertAll others).keys ↔ i ∈ counter.keys ∨ i ∈ others.keys := by
  induction others generalizing counter with
  | nil => simp [insertAll, keys]
  | cons pair others ih =>
    obtain ⟨k, n⟩ := pair
    have listed : i ∈ keys ((k, n) :: others) ↔ i = k ∨ i ∈ keys others := List.mem_cons
    rw [insertAll, List.foldl_cons, ← insertAll, ih, listed]
    by_cases known : k ∈ counter.keys
    · have other (absent : i ∉ counter.keys) : i ≠ k := by
        rintro rfl
        exact absent known
      rw [if_pos known]
      exact or_congr_right' fun absent => (or_iff_right (other absent)).symm
    · rw [if_neg known, mem_keys_put, or_assoc, or_left_comm]

/-- A key that is there keeps its number, the others have the new one. -/
theorem mails_insertAll (counter others : MailCounter) (i : Int) :
    (counter.insertAll others).mails i =
      if i ∈ counter.keys then counter.mails i else others.mails i := by
  induction others generalizing counter with
  | nil =>
    split
    · rfl
    next absent => exact mails_absent counter i absent
  | cons pair others ih =>
    obtain ⟨k, n⟩ := pair
    rw [insertAll, List.foldl_cons, ← insertAll, mails_cons, ih]
    by_cases known : k ∈ counter.keys
    · rw [if_pos known]
      split
      · rfl
      next absent => rw [if_neg fun same : i = k => absent (same ▸ known)]
    · rw [if_neg known]
      simp only [mem_keys_put, mails_put]
      by_cases same : i = k
      · rw [if_pos (.inl same), if_pos same, same, if_neg known, if_pos rfl]
      · simp only [same, false_or, if_false]

/-- What a `std::map<int, int>` holds: its keys in order, and an `int` for each. -/
structure WellFormed (counter : MailCounter) : Prop where
  sorted : counter.Sorted
  values : ∀ pair ∈ counter, IsInt pair.2

theorem WellFormed.mails {counter : MailCounter} (wellFormed : counter.WellFormed) (key : Int) :
    IsInt (counter.mails key) := by
  rw [MailCounter.mails]
  cases found : counter.lookup key with
  | none => exact ⟨by decide, by decide⟩
  | some n =>
    obtain ⟨before, behind, parts, -⟩ := List.lookup_eq_some_iff.mp found
    exact wellFormed.values (key, n) (by rw [parts]; simp)

end MailCounter

/-! ### Folders above a folder -/

/-- `g` is below `f`. -/
def isBelow (f g : FolderInfo) : Bool := (f.name ++ [slash]).isPrefixOf g.name

theorem isBelow_iff (f g : FolderInfo) :
    isBelow f g = true ↔ ∃ rest, g.name = f.name ++ slash :: rest := by
  rw [isBelow, List.isPrefixOf_iff_prefix]
  constructor
  · rintro ⟨rest, whole⟩
    exact ⟨rest, by rw [← whole, List.append_assoc]; rfl⟩
  · rintro ⟨rest, whole⟩
    exact ⟨rest, by rw [whole, List.append_assoc]; rfl⟩

/-- The walk up from a path meets the paths it is below of, and each of them once. -/
theorem parentDirs_spec (rounds : Nat) (name : Bytes) (absolute : name.head? = some slash)
    (enough : name.length ≤ rounds) :
    (∀ dir, dir ∈ parentDirs rounds name ↔ dir ≠ [] ∧ ∃ rest, name = dir ++ slash :: rest) ∧
      (parentDirs rounds name).Nodup := by
  induction rounds generalizing name with
  | zero =>
    rw [List.eq_nil_of_length_eq_zero (Nat.le_zero.mp enough)] at absolute
    cases absolute
  | succ rounds ih =>
    obtain ⟨shorter, still⟩ := dirname_absolute name absolute
    obtain ⟨base, whole, plain⟩ := exists_base name (List.mem_of_head? absolute)
    -- what is above the path is its `dirname` or above that
    have up (dir : Bytes) (some_ : dir ≠ []) (above : ∃ rest, name = dir ++ slash :: rest) :
        dir = dirname name ∨ ∃ rest, dirname name = dir ++ slash :: rest := by
      obtain ⟨rest, below⟩ := above
      obtain ⟨outer, deeper, -⟩ := dirname_deeper dir (slash :: rest) (by simp) (deeper_cons rest)
      rw [below, outer]
      rcases deeper with none_ | first
      · exact .inl (by rw [none_, List.append_nil])
      · obtain ⟨rest', inner⟩ := List.head?_eq_some_iff.mp first
        exact .inr ⟨rest', by rw [inner]⟩
    rw [parentDirs]
    split
    next top =>
      refine ⟨fun dir => iff_of_false List.not_mem_nil ?_, List.nodup_nil⟩
      rintro ⟨some_, above⟩
      rcases up dir some_ above with same | ⟨rest, inner⟩
      · exact some_ (same.trans top)
      · rw [top] at inner
        simp at inner
    next some_ =>
      obtain ⟨members, once⟩ := ih (dirname name) (still some_) (by omega)
      constructor
      · intro dir
        rw [List.mem_cons, members]
        constructor
        · rintro (rfl | ⟨some', rest, inner⟩)
          · exact ⟨some_, base, whole⟩
          · refine ⟨some', rest ++ slash :: base, ?_⟩
            calc name = dirname name ++ slash :: base := whole
              _ = dir ++ slash :: (rest ++ slash :: base) := by rw [inner, List.append_assoc]; rfl
        · rintro ⟨some', above⟩
          exact (up dir some' above).imp_right fun inner => ⟨some', inner⟩
      · refine List.nodup_cons.mpr ⟨fun member => ?_, once⟩
        -- a path is not above itself
        obtain ⟨-, rest, inner⟩ := (members _).mp member
        have length := congrArg List.length inner
        rw [List.length_append, List.length_cons] at length
        omega

/-! ### The walk -/

/-- The folders of an account: absolute paths, each listed once and with those above it, under ids
of their own. -/
structure FolderTree (folders : List FolderInfo) : Prop extends PathTree folders where
  absolute : ∀ f ∈ folders, f.name.head? = some slash
  identified : (folders.map FolderInfo.id).Nodup

namespace FolderTree

variable {folders : List FolderInfo} (tree : FolderTree folders)

include tree

theorem name_inj {f g : FolderInfo} (memberF : f ∈ folders) (memberG : g ∈ folders)
    (same : f.name = g.name) : f = g := List.inj_on_of_nodup_map tree.distinct memberF memberG same

theorem id_inj {f g : FolderInfo} (memberF : f ∈ folders) (memberG : g ∈ folders)
    (same : f.id = g.id) :
    f = g := List.inj_on_of_nodup_map tree.identified memberF memberG same

theorem name_ne_nil {f : FolderInfo} (member : f ∈ folders) : f.name ≠ [] := by
  intro none_
  have first := tree.absolute f member
  rw [none_] at first
  cases first

/-- The walk up from a listed folder meets the listed folders it is below of. -/
theorem mem_parentDirs_iff {f g : FolderInfo} (memberF : f ∈ folders) (memberG : g ∈ folders) :
    f.name ∈ parentDirs g.name.length g.name ↔ isBelow f g = true := by
  rw [(parentDirs_spec _ g.name (tree.absolute g memberG) (Nat.le_refl _)).1, isBelow_iff]
  exact and_iff_right (tree.name_ne_nil memberF)

theorem parentsFound {g : FolderInfo} (member : g ∈ folders) (proper : g.id ≠ -1) :
    ParentsFound folders g.id := by
  obtain ⟨f, memberF, same, found⟩ := exists_getFolderInfo folders g.id proper g member rfl
  refine ⟨f, found, fun dir above => ?_⟩
  obtain ⟨some_, rest, whole⟩ :=
    ((parentDirs_spec _ f.name (tree.absolute f memberF) (Nat.le_refl _)).1 dir).mp above
  exact tree.above dir (slash :: rest) some_ (deeper_cons rest) ⟨f, memberF, whole⟩

end FolderTree

/-- The counter has a number and a key for a folder as two functions give them, the number as far as
an `int` holds it. -/
structure Tallies (folders : List FolderInfo) (counter : MailCounter) (number : FolderInfo → Int)
    (key : FolderInfo → Prop) : Prop where
  number : ∀ f ∈ folders, counter.mails f.id = Int.bmod (number f) (2 ^ 32)
  key : ∀ f ∈ folders, f.id ∈ counter.keys ↔ key f

section Walk

variable {folders : List FolderInfo} (tree : FolderTree folders) {counter : MailCounter}
  {number number' : FolderInfo → Int} {key key' : FolderInfo → Prop}

theorem Tallies.congr (tallies : Tallies folders counter number key)
    (numbers : ∀ f ∈ folders, number f = number' f) (keys : ∀ f ∈ folders, key f ↔ key' f) :
    Tallies folders counter number' key' where
  number := fun f member => numbers f member ▸ tallies.number f member
  key := fun f member => (tallies.key f member).trans (keys f member)

include tree

theorem Tallies.add (tallies : Tallies folders counter number key) {g : FolderInfo}
    (memberG : g ∈ folders) (n : Int) :
    Tallies folders (counter.add g.id n) (fun f => number f + if f = g then n else 0)
      (fun f => key f ∨ f = g) where
  number := by
    intro f member
    have same : f.id = g.id ↔ f = g := ⟨tree.id_inj member memberG, congrArg FolderInfo.id⟩
    rw [MailCounter.mails_add, tallies.number f member]
    simp only [same]
    split
    -- a sum that has wrapped around wraps around again
    · exact Int.bmod_add_bmod
    · rw [Int.add_zero]
  key := by
    intro f member
    have same : f.id = g.id ↔ f = g := ⟨tree.id_inj member memberG, congrArg FolderInfo.id⟩
    rw [MailCounter.mem_keys_add, tallies.key f member, same, or_comm]

/-- The inner loop counts the mails once for each of the directories. -/
theorem Tallies.fillParent (n : Int) (dirs : List Bytes) (once : dirs.Nodup)
    (counter' : MailCounter) (tallies : Tallies folders counter number key)
    (done : dirs.foldlM (fillParent folders n) counter = .ok counter') :
    Tallies folders counter' (fun f => number f + if f.name ∈ dirs then n else 0)
      (fun f => key f ∨ f.name ∈ dirs) := by
  induction dirs generalizing counter number key with
  | nil =>
    rw [List.foldlM_nil] at done
    obtain rfl := Except.ok.inj done
    exact tallies.congr (by simp) (by simp)
  | cons dir dirs ih =>
    obtain ⟨new, later⟩ := List.nodup_cons.mp once
    rw [List.foldlM_cons, Zn.fillParent] at done
    cases found : getFolderInfoByName folders dir with
    | error e =>
      rw [found] at done
      cases done
    | ok parent =>
      rw [found] at done
      rw [getFolderInfoByName] at found
      split at found
      next info first =>
        obtain rfl := Except.ok.inj found
        have member := List.mem_of_find?_eq_some first
        have named : info.name = dir := by simpa using List.find?_some first
        refine (ih later (tallies.add tree member n) done).congr (fun f memberF => ?_)
          fun f memberF => ?_
        · -- one folder has the name of the directory, and no directory comes twice
          have same : f = info ↔ f.name = dir :=
            ⟨fun same => same ▸ named,
              fun same => tree.name_inj memberF member (same.trans named.symm)⟩
          simp only [same, List.mem_cons]
          by_cases here : f.name = dir
          · simp [here, new]
          · simp [here]
        · have same : f = info ↔ f.name = dir :=
            ⟨fun same => same ▸ named,
              fun same => tree.name_inj memberF member (same.trans named.symm)⟩
          rw [same, List.mem_cons, or_assoc]
      · cases found

end Walk

/-! ### Totals -/

/-- The mails below a folder. -/
def belowMails (folders : List FolderInfo) (counter : MailCounter) (f : FolderInfo) : Int :=
  ((folders.filter (isBelow f)).map fun g => counter.mails g.id).sum

theorem sum_single (items : List FolderInfo) (identified : (items.map FolderInfo.id).Nodup)
    (info : FolderInfo) (n : Int) (only : ∀ g ∈ items, g.id = info.id → g = info) :
    (items.map fun g => if g.id = info.id then n else 0).sum = if info ∈ items then n else 0 := by
  induction items with
  | nil => simp
  | cons g items ih =>
    obtain ⟨new, later⟩ := List.nodup_cons.mp identified
    have rest := ih later fun g' member => only g' (List.mem_cons_of_mem g member)
    rw [List.map_cons, List.sum_cons, rest]
    by_cases same : g.id = info.id
    · obtain rfl := only g List.mem_cons_self same
      have absent : g ∉ items := fun member => new (List.mem_map_of_mem member)
      simp [absent]
    · have other : info ≠ g := fun equal => same (equal ▸ rfl)
      simp [same, other]

/-- One more folder with mail counts for the folders it is below of. -/
theorem belowMails_cons {folders : List FolderInfo} (tree : FolderTree folders)
    (info : FolderInfo) (member : info ∈ folders) (n : Int) (rest : MailCounter)
    (new : info.id ∉ rest.keys) (f : FolderInfo) :
    belowMails folders ((info.id, n) :: rest) f =
      (if isBelow f info = true then n else 0) + belowMails folders rest f := by
  have each (g : FolderInfo) :
      MailCounter.mails ((info.id, n) :: rest) g.id =
        (if g.id = info.id then n else 0) + rest.mails g.id := by
    rw [MailCounter.mails_cons]
    split
    next same => rw [same, MailCounter.mails_absent rest info.id new, Int.add_zero]
    · rw [Int.zero_add]
  have part : ((folders.filter (isBelow f)).map FolderInfo.id).Nodup :=
    tree.identified.sublist (List.filter_sublist.map _)
  have alone (g : FolderInfo) (among : g ∈ folders.filter (isBelow f))
      (same : g.id = info.id) : g = info :=
    tree.id_inj (List.mem_of_mem_filter among) member same
  simp only [belowMails, each, List.sum_map_add, sum_single _ part info n alone, List.mem_filter,
    member, true_and]

/-- The outer loop counts the mails of each folder for all the folders above it. -/
theorem Tallies.fillParents {folders : List FolderInfo} (tree : FolderTree folders)
    (counter : MailCounter) (sorted : counter.Sorted) (proper : -1 ∉ counter.keys)
    (parents parents' : MailCounter) {number : FolderInfo → Int} {key : FolderInfo → Prop}
    (tallies : Tallies folders parents number key)
    (done : counter.foldlM (Zn.fillParents folders) parents = .ok parents') :
    Tallies folders parents' (fun f => number f + belowMails folders counter f)
      (fun f => key f ∨ ∃ g ∈ folders, isBelow f g = true ∧ g.id ∈ counter.keys) := by
  induction counter generalizing parents number key with
  | nil =>
    rw [List.foldlM_nil] at done
    obtain rfl := Except.ok.inj done
    refine tallies.congr (fun f _ => ?_) fun f _ => ?_
    · simp [belowMails, MailCounter.mails]
    · simp [MailCounter.keys]
  | cons pair rest ih =>
    obtain ⟨k, n⟩ := pair
    obtain ⟨first, later⟩ := (MailCounter.sorted_cons k n rest).mp sorted
    rw [MailCounter.keys, List.map_cons, List.mem_cons, not_or] at proper
    rw [List.foldlM_cons, Zn.fillParents] at done
    cases found : getFolderInfo folders k with
    | error e =>
      rw [found] at done
      cases done
    | ok info =>
      obtain ⟨member, rfl⟩ := getFolderInfo_mem folders k (Ne.symm proper.1) info found
      simp only [found] at done
      cases inner : (parentDirs info.name.length info.name).foldlM (Zn.fillParent folders n)
        parents with
      | error e =>
        rw [inner] at done
        cases done
      | ok between =>
        rw [inner] at done
        have once := (parentDirs_spec _ info.name (tree.absolute info member) (Nat.le_refl _)).2
        -- the counter has one entry for each folder
        have new : info.id ∉ MailCounter.keys rest :=
          fun listed => lt_irrefl _ (first info.id listed)
        refine (ih later proper.2 between
          (tallies.fillParent tree n _ once between inner) done).congr
          (fun f memberF => ?_) fun f memberF => ?_
        · rw [belowMails_cons tree info member n rest new, Int.add_assoc]
          simp only [tree.mem_parentDirs_iff memberF member]
        · rw [tree.mem_parentDirs_iff memberF member, or_assoc]
          refine or_congr_right ⟨?_, ?_⟩
          · rintro (below | ⟨g, memberG, below, listed⟩)
            · exact ⟨info, member, below, List.mem_cons_self⟩
            · exact ⟨g, memberG, below, List.mem_cons_of_mem _ listed⟩
          · rintro ⟨g, memberG, below, listed⟩
            rcases List.mem_cons.mp listed with same | listed
            · exact .inl (tree.id_inj memberG member same ▸ below)
            · exact .inr ⟨g, memberG, below, listed⟩

/-- A folder has a key when there is mail in it or below it, and its number is that of all this
mail. -/
structure SubtreesCounted (folders : List FolderInfo) (counter filled : MailCounter) : Prop where
  key : ∀ f ∈ folders, f.id ∈ filled.keys ↔
    0 < counter.mails f.id ∨ ∃ g ∈ folders, isBelow f g = true ∧ 0 < counter.mails g.id
  number : ∀ f ∈ folders, filled.mails f.id = counter.mails f.id + belowMails folders counter f

/-- A folder with a number of its own has mail, and the folders below it have none. -/
def CountedApart (folders : List FolderInfo) (counter : MailCounter) : Prop :=
  ∀ f ∈ folders, f.id ∈ counter.keys →
    0 < counter.mails f.id ∧ ∀ g ∈ folders, isBelow f g = true → counter.mails g.id = 0

theorem CountedApart.nonneg {folders : List FolderInfo} {counter : MailCounter}
    (apart : CountedApart folders counter) (f : FolderInfo) (member : f ∈ folders) :
    0 ≤ counter.mails f.id := by
  by_cases listed : f.id ∈ counter.keys
  · exact (apart f member listed).1.le
  · exact (MailCounter.mails_absent counter f.id listed).ge

section Below

variable {folders : List FolderInfo} {counter : MailCounter} {f : FolderInfo}

theorem belowMails_nonneg
    (nonneg : ∀ g ∈ folders, isBelow f g = true → 0 ≤ counter.mails g.id) :
    0 ≤ belowMails folders counter f := by
  refine List.sum_nonneg fun n among => ?_
  obtain ⟨g, below, rfl⟩ := List.mem_map.mp among
  exact nonneg g (List.mem_filter.mp below).1 (List.mem_filter.mp below).2

theorem belowMails_eq_zero
    (none_ : ∀ g ∈ folders, isBelow f g = true → counter.mails g.id = 0) :
    belowMails folders counter f = 0 := by
  refine List.sum_eq_zero fun n among => ?_
  obtain ⟨g, below, rfl⟩ := List.mem_map.mp among
  exact none_ g (List.mem_filter.mp below).1 (List.mem_filter.mp below).2

/-- A sum of numbers that are not below 0 is 0 only when they all are. -/
theorem mails_eq_zero_of_belowMails
    (nonneg : ∀ g ∈ folders, isBelow f g = true → 0 ≤ counter.mails g.id)
    (none_ : belowMails folders counter f = 0) (g : FolderInfo) (member : g ∈ folders)
    (below : isBelow f g = true) : counter.mails g.id = 0 := by
  refine List.all_zero_of_le_zero_le_of_sum_eq_zero (fun n among => ?_) none_
    (List.mem_map_of_mem (List.mem_filter.mpr ⟨member, below⟩))
  obtain ⟨g', below', rfl⟩ := List.mem_map.mp among
  exact nonneg g' (List.mem_filter.mp below').1 (List.mem_filter.mp below').2

/-- A path below another one is longer. -/
theorem length_lt_of_isBelow {g : FolderInfo} (below : isBelow f g = true) :
    f.name.length < g.name.length := by
  obtain ⟨rest, whole⟩ := (isBelow_iff f g).mp below
  rw [whole, List.length_append, List.length_cons]
  omega

end Below

section Fill

variable {folders : List FolderInfo} (tree : FolderTree folders) {counter : MailCounter}

/-- What `_fill_parent_folder_mail_counter` leaves: the folders with a number of their own keep it,
the others have what the mails below them come to, as far as an `int` holds it. -/
structure Filled (folders : List FolderInfo) (counter filled : MailCounter) : Prop where
  key : ∀ f ∈ folders, f.id ∈ filled.keys ↔
    f.id ∈ counter.keys ∨ ∃ g ∈ folders, isBelow f g = true ∧ g.id ∈ counter.keys
  own : ∀ f ∈ folders, f.id ∈ counter.keys → filled.mails f.id = counter.mails f.id
  parent : ∀ f ∈ folders, f.id ∉ counter.keys →
    filled.mails f.id = Int.bmod (belowMails folders counter f) (2 ^ 32)

/-- Every folder with a number of its own has mail: the deepest ones, as there is none below them,
and from there on up, as what is below them comes to 0. -/
theorem countedApart_of_counted {filled : MailCounter} (spec : Filled folders counter filled)
    (counted : SubtreesCounted folders counter filled) : CountedApart folders counter := by
  have none_ (f : FolderInfo) (member : f ∈ folders) (listed : f.id ∈ counter.keys) :
      belowMails folders counter f = 0 := by
    have kept := spec.own f member listed
    rw [counted.number f member] at kept
    omega
  have bounded (f : FolderInfo) (member : f ∈ folders) :
      f.name.length ≤ (folders.map fun f => f.name.length).sum :=
    List.single_le_sum (fun _ _ => Nat.zero_le _) _ (List.mem_map_of_mem member)
  intro f member listed
  -- by induction on how far the path is from the longest one there can be
  induction depth : (folders.map fun f => f.name.length).sum - f.name.length
    using Nat.strongRecOn generalizing f with
  | ind depth ih =>
    have nonneg (g : FolderInfo) (memberG : g ∈ folders) (below : isBelow f g = true) :
        0 ≤ counter.mails g.id := by
      by_cases listedG : g.id ∈ counter.keys
      · have longer := length_lt_of_isBelow below
        have within_ := bounded g memberG
        exact (ih _ (by omega) g memberG listedG rfl).1.le
      · exact (MailCounter.mails_absent counter g.id listedG).ge
    have empty := mails_eq_zero_of_belowMails nonneg (none_ f member listed)
    refine ⟨?_, empty⟩
    rcases (counted.key f member).mp ((spec.key f member).mpr (.inl listed))
      with own | ⟨g, memberG, below, mail⟩
    · exact own
    · exact absurd mail (empty g memberG below).not_gt

include tree

theorem fill_spec (sorted : counter.Sorted) (proper : -1 ∉ counter.keys) (filled : MailCounter)
    (done : fillParentFolderMailCounter folders counter = .ok filled) :
    Filled folders counter filled := by
  rw [fillParentFolderMailCounter] at done
  cases walked : counter.foldlM (fillParents folders) [] with
  | error e =>
    rw [walked] at done
    cases done
  | ok parents =>
    rw [walked] at done
    obtain rfl := Except.ok.inj done
    have start : Tallies folders [] (fun _ => 0) fun _ => False :=
      ⟨fun _ _ => rfl, fun _ _ => iff_of_false List.not_mem_nil not_false⟩
    have tallies := start.fillParents tree counter sorted proper [] parents walked
    refine ⟨fun f member => ?_, fun f _ listed => ?_, fun f member absent => ?_⟩
    · rw [MailCounter.mem_keys_insertAll_iff, tallies.key f member, false_or]
    · rw [MailCounter.mails_insertAll, if_pos listed]
    · rw [MailCounter.mails_insertAll, if_neg absent, tallies.number f member, Int.zero_add]

/-- With a key of -1 the lookup is one by the empty name, which no folder has. -/
theorem proper_of_filled (filled : MailCounter)
    (done : fillParentFolderMailCounter folders counter = .ok filled) : -1 ∉ counter.keys := by
  intro member
  obtain ⟨info, first, -⟩ :=
    (fillParentFolderMailCounter_ok_iff folders counter).mp ⟨filled, done⟩ (-1) member
  rw [getFolderInfo] at first
  split at first
  next info' hit =>
    have named : info'.name = [] := by simpa using List.find?_some hit
    exact tree.name_ne_nil (List.mem_of_find?_eq_some hit) named
  · cases first

theorem fillParentFolderMailCounter_counted_iff (wellFormed : counter.WellFormed)
    (among : ∀ key ∈ counter.keys, ∃ f ∈ folders, f.id = key) :
    (∃ filled, fillParentFolderMailCounter folders counter = .ok filled ∧
        SubtreesCounted folders counter filled) ↔
      -1 ∉ counter.keys ∧ CountedApart folders counter ∧
        ∀ f ∈ folders, counter.mails f.id + belowMails folders counter f < 2 ^ 31 := by
  constructor
  · rintro ⟨filled, done, counted⟩
    have proper := proper_of_filled tree filled done
    have spec := fill_spec tree wellFormed.sorted proper filled done
    refine ⟨proper, countedApart_of_counted spec counted, fun f member => ?_⟩
    -- the total is what an `int` holds
    rw [← counted.number f member]
    by_cases listed : f.id ∈ counter.keys
    · rw [spec.own f member listed]
      exact (wellFormed.mails f.id).2
    · rw [spec.parent f member listed]
      exact Int.bmod_lt (by decide)
  · rintro ⟨proper, apart, fits⟩
    obtain ⟨filled, done⟩ :=
      (fillParentFolderMailCounter_ok_iff folders counter).mpr fun key member => by
      obtain ⟨f, memberF, rfl⟩ := among key member
      exact tree.parentsFound memberF fun same => proper (same ▸ member)
    have spec := fill_spec tree wellFormed.sorted proper filled done
    have mail (f : FolderInfo) (member : f ∈ folders) : f.id ∈ counter.keys ↔
        0 < counter.mails f.id := by
      refine ⟨fun listed => (apart f member listed).1, fun some_ => ?_⟩
      by_contra absent
      rw [MailCounter.mails_absent counter f.id absent] at some_
      exact lt_irrefl 0 some_
    refine ⟨filled, done, fun f member => ?_, fun f member => ?_⟩
    · rw [spec.key f member, mail f member]
      refine or_congr_right (exists_congr fun g => and_congr_right fun memberG => ?_)
      rw [mail g memberG]
    · by_cases listed : f.id ∈ counter.keys
      · rw [spec.own f member listed, belowMails_eq_zero (apart f member listed).2, Int.add_zero]
      · have total := fits f member
        have nonneg : 0 ≤ belowMails folders counter f :=
          belowMails_nonneg fun g memberG _ => apart.nonneg g memberG
        rw [MailCounter.mails_absent counter f.id listed, Int.zero_add] at total ⊢
        rw [spec.parent f member listed, Int.bmod_eq_of_le (by omega) (by omega)]

end Fill

/-- A folder and the one that is in it. -/
def twoFolders : List FolderInfo := [⟨ascii "/a", [], 257⟩, ⟨ascii "/a/b", [], 258⟩]

theorem folderTree_twoFolders : FolderTree twoFolders :=
  ⟨⟨by decide, by decide⟩, by decide, by decide⟩

/-- Only the inner folder has mail. -/
theorem fillParentFolderMailCounter_inner :
    ∃ filled, fillParentFolderMailCounter twoFolders [(258, 3)] = .ok filled ∧
      SubtreesCounted twoFolders [(258, 3)] filled :=
  (fillParentFolderMailCounter_counted_iff folderTree_twoFolders
    ⟨show MailCounter.Sorted [(258, 3)] from List.pairwise_singleton _ _, by simp [IsInt]⟩
    (by decide)).mpr
    ⟨by decide, by rw [CountedApart]; decide, by decide⟩

/-- Both have mail: the outer one keeps the number of its own. -/
theorem fillParentFolderMailCounter_both :
    ¬ ∃ filled, fillParentFolderMailCounter twoFolders [(257, 1), (258, 2)] = .ok filled ∧
      SubtreesCounted twoFolders [(257, 1), (258, 2)] filled := by
  rintro ⟨filled, done, counted⟩
  have result : fillParentFolderMailCounter twoFolders [(257, 1), (258, 2)] =
      .ok [(257, 1), (258, 2)] := rfl
  obtain rfl := Except.ok.inj (done.symm.trans result)
  exact absurd (counted.number ⟨ascii "/a", [], 257⟩ (by decide)) (by decide)

end Zn
