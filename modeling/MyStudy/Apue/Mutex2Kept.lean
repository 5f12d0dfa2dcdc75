import MyStudy.Apue.Mutex2
import MyStudy.Lib.LinkedChain
import MyStudy.Lib.Shares

/-!
# Whose the locks and the references are

Each place of the code says which locks the thread has there, and which reference. The count of an
object is the number of references to it, and the lists of the table hold the objects that are not
being set up or removed.
-/
namespace Apue.Mutex2

open LinkedChain Shares

/-! ### What a thread has at each place -/

/-- The reference that a call has, besides those that its thread has. -/
def Point.owns : Point → Option Addr
  | .allocLockHash _ fp => some fp
  | .allocNext _ fp => some fp
  | .allocHead _ fp => some fp
  | .allocLock fp => some fp
  | .allocUnlockHash fp => some fp
  | .allocUnlock fp => some fp
  | .holdUnlock fp => some fp
  | .findUnlock _ fp => some fp
  | .findUnlockHash _ fp => fp
  | .releLock fp => some fp
  | .releTest fp => some fp
  | .releUnlockFirst fp => some fp
  | .releLockHash fp => some fp
  | .releRelock fp => some fp
  | .releRecheck fp => some fp
  | .releRecount fp => some fp
  | .releHead fp => some fp
  | .releUnlinkHead fp => some fp
  | .releWalk fp _ => some fp
  | .releUnlink fp _ => some fp
  | .releUnlockHash fp => some fp
  | .releUnlock fp => some fp
  | .releDestroy fp => some fp
  | .releFree fp => some fp
  | .releCount fp => some fp
  | _ => none

/-- The object whose lock a thread has. -/
def Point.locked : Point → Option Addr
  | .allocUnlockHash fp => some fp
  | .allocUnlock fp => some fp
  | .holdCount fp => some fp
  | .holdUnlock fp => some fp
  | .findCount _ fp => some fp
  | .findUnlock _ fp => some fp
  | .releTest fp => some fp
  | .releUnlockFirst fp => some fp
  | .releRecheck fp => some fp
  | .releRecount fp => some fp
  | .releUnlockAgain fp => some fp
  | .releHead fp => some fp
  | .releUnlinkHead fp => some fp
  | .releWalk fp _ => some fp
  | .releUnlink fp _ => some fp
  | .releUnlockHash fp => some fp
  | .releUnlock fp => some fp
  | .releCount fp => some fp
  | .releUnlockLast fp => some fp
  | _ => none

/-- The object of which a thread counts one more reference. -/
def Point.takes : Point → Option Addr
  | .holdCount fp => some fp
  | .findCount _ fp => some fp
  | _ => none

/-- Whether a thread has `hashlock`. -/
def Point.inHash : Point → Bool
  | .allocNext _ _ => true
  | .allocHead _ _ => true
  | .allocLock _ => true
  | .allocUnlockHash _ => true
  | .findHead _ => true
  | .findTest _ _ => true
  | .findLock _ _ => true
  | .findCount _ _ => true
  | .findUnlock _ _ => true
  | .findUnlockHash _ _ => true
  | .releRelock _ => true
  | .releRecheck _ => true
  | .releRecount _ => true
  | .releUnlockAgain _ => true
  | .releUnlockHashAgain => true
  | .releHead _ => true
  | .releUnlinkHead _ => true
  | .releWalk _ _ => true
  | .releUnlink _ _ => true
  | .releUnlockHash _ => true
  | _ => false

/-- The object that is not in the table yet, or no longer. -/
def Point.hidden : Point → Option Addr
  | .allocLockHash _ fp => some fp
  | .allocNext _ fp => some fp
  | .allocHead _ fp => some fp
  | .releUnlockHash fp => some fp
  | .releUnlock fp => some fp
  | .releDestroy fp => some fp
  | .releFree fp => some fp
  | _ => none

/-- The object to which nobody else has a reference. -/
def Point.sole : Point → Option Addr
  | .releHead fp => some fp
  | .releUnlinkHead fp => some fp
  | .releWalk fp _ => some fp
  | .releUnlink fp _ => some fp
  | point => point.hidden

theorem not_sole {point : Point} {known : Addr → Prop} (sole : point.sole = none) :
    ∀ a, point.sole = some a → known a := by simp [sole]

def Thread.owned (x : Thread) (a : Addr) : Nat :=
  x.refs.count a + if x.point.owns = some a then 1 else 0

theorem Point.owns_of_sole {point : Point} {a : Addr} (sole : point.sole = some a) :
    point.owns = some a := by
  cases point <;> first | exact sole | cases sole

theorem Point.sole_of_hidden {point : Point} {a : Addr} (hidden : point.hidden = some a) :
    point.sole = some a := by
  cases point <;> first | exact hidden | cases hidden

theorem Point.hidden_or_locked {point : Point} {a : Addr} (sole : point.sole = some a) :
    point.hidden = some a ∨ point.locked = some a := by
  cases point <;> first | exact .inl sole | exact .inr sole

theorem Thread.owned_pos {x : Thread} {a : Addr} (owns : x.point.owns = some a) :
    0 < x.owned a := by
  rw [Thread.owned, if_pos owns]
  exact Nat.succ_pos _

theorem Thread.owned_refs {x : Thread} {a : Addr} (member : a ∈ x.refs) : 0 < x.owned a :=
  Nat.add_pos_left (List.count_pos_iff.mpr member) _

theorem owned_eq {x y : Thread} (refs : y.refs = x.refs) (owns : y.point.owns = x.point.owns)
    (a : Addr) :
    y.owned a = x.owned a := by rw [Thread.owned, Thread.owned, refs, owns]

/-- A call returns the reference that it has. -/
theorem owned_returns (x : Thread) {fp : Option Addr} (owns : x.point.owns = fp) (a : Addr) :
    Thread.owned ⟨fp.toList ++ x.refs, .idle⟩ a = x.owned a := by
  cases fp with
  | none =>
    rw [Thread.owned, Thread.owned, owns]
    rfl
  | some fp =>
    rw [Thread.owned, Thread.owned, owns, Option.toList_some, List.singleton_append,
      List.count_cons]
    simp [Point.owns]

/-- A call begins with a reference of its thread. -/
theorem owned_erase {x : Thread} {point : Point} {fp : Addr} (before : x.point.owns = none)
    (member : fp ∈ x.refs) (owns : point.owns = some fp) (a : Addr) :
    Thread.owned ⟨x.refs.erase fp, point⟩ a = x.owned a := by
  have positive := List.count_pos_iff.mpr member
  rw [Thread.owned, Thread.owned, before, owns, List.count_erase]
  by_cases same : fp = a
  · subst same
    simp only [beq_self_eq_true, if_true, reduceCtorEq, if_false]
    omega
  · simp [same]

/-! ### Locks -/

section Locks

variable {Tid : Type}

def State.holder (s : State Tid) (a : Addr) : Option Tid := (s.heap a).bind Foo.lock

/-- `hashlock` belongs to the thread that is at a place where it has it. -/
def HashOwner (hashlock : Option Tid) (threads : Tid → Thread) : Prop :=
  ∀ t, hashlock = some t ↔ (threads t).point.inHash = true

/-- And so does the lock of each object. -/
def FooOwner (holder : Addr → Option Tid) (threads : Tid → Thread) : Prop :=
  ∀ a t, holder a = some t ↔ (threads t).point.locked = some a

variable {hashlock : Option Tid} {holder : Addr → Option Tid} {threads : Tid → Thread}
    {t u : Tid} {a : Addr}

theorem HashOwner.alone (owner : HashOwner hashlock threads)
    (first : (threads t).point.inHash = true) (second : (threads u).point.inHash = true) : t = u :=
  Option.some.inj (((owner t).mpr first).symm.trans ((owner u).mpr second))

theorem FooOwner.alone (owner : FooOwner holder threads) (first : (threads t).point.locked = some a)
    (second : (threads u).point.locked = some a) : t = u :=
  Option.some.inj (((owner a t).mpr first).symm.trans ((owner a u).mpr second))

variable [DecidableEq Tid] {x : Thread}

theorem HashOwner.moves (owner : HashOwner hashlock threads)
    (same : x.point.inHash = (threads t).point.inHash) :
    HashOwner hashlock (Function.update threads t x) := by
  refine (Function.forall_update_iff threads
    fun u y => hashlock = some u ↔ y.point.inHash = true).mpr
    ⟨?_, fun u _ => owner u⟩
  rw [same]
  exact owner t

theorem HashOwner.takes (owner : HashOwner none threads) (inHash : x.point.inHash = true) :
    HashOwner (some t) (Function.update threads t x) := by
  refine (Function.forall_update_iff threads fun u y => some t = some u ↔ y.point.inHash = true).mpr
    ⟨iff_of_true rfl inHash, fun u other => ?_⟩
  rw [← owner u]
  simp [other.symm]

theorem HashOwner.leaves (owner : HashOwner (some t) threads) (inHash : x.point.inHash = false) :
    HashOwner none (Function.update threads t x) := by
  refine (Function.forall_update_iff threads fun u y => none = some u ↔ y.point.inHash = true).mpr
    ⟨iff_of_false nofun (by simp [inHash]), fun u other => ?_⟩
  rw [← owner u]
  simp [other.symm]

theorem FooOwner.moves (owner : FooOwner holder threads)
    (same : x.point.locked = (threads t).point.locked) :
    FooOwner holder (Function.update threads t x) := by
  intro a
  refine (Function.forall_update_iff threads
    fun u y => holder a = some u ↔ y.point.locked = some a).mpr
    ⟨?_, fun u _ => owner a u⟩
  rw [same]
  exact owner a t

theorem FooOwner.takes (owner : FooOwner holder threads) (before : (threads t).point.locked = none)
    (free : holder a = none) (locked : x.point.locked = some a) :
    FooOwner (Function.update holder a (some t)) (Function.update threads t x) := by
  intro b
  refine (Function.forall_update_iff threads fun u y =>
    Function.update holder a (some t) b = some u ↔
      y.point.locked = some b).mpr ⟨?_, fun u other => ?_⟩
  · have mine := owner b t
    rw [before] at mine
    by_cases same : b = a
    · subst same
      rw [Function.update_self]
      exact iff_of_true rfl locked
    · rw [Function.update_of_ne same, mine, locked]
      simp [Ne.symm same]
  · rw [← owner b u]
    by_cases same : b = a
    · subst same
      rw [Function.update_self, free]
      simp [other.symm]
    · rw [Function.update_of_ne same]

theorem FooOwner.leaves (owner : FooOwner holder threads)
    (before : (threads t).point.locked = some a) (locked : x.point.locked = none) :
    FooOwner (Function.update holder a none) (Function.update threads t x) := by
  intro b
  refine (Function.forall_update_iff threads fun u y =>
    Function.update holder a none b = some u ↔ y.point.locked = some b).mpr ⟨?_, fun u other => ?_⟩
  · rw [locked]
    have mine := owner b t
    rw [before] at mine
    by_cases same : b = a
    · subst same
      simp
    · rw [Function.update_of_ne same, mine]
      simp [Ne.symm same]
  · rw [← owner b u]
    by_cases same : b = a
    · subst same
      rw [Function.update_self, (owner b t).mpr before]
      simp [other.symm]
    · rw [Function.update_of_ne same]

/-- Nobody locks an object to which only somebody else has a reference. -/
def Apart (threads : Tid → Thread) : Prop :=
  ∀ t u a, (threads t).point.sole = some a → (threads u).point.locked = some a → t = u

omit [DecidableEq Tid] in
theorem Apart.not_sole (apart : Apart threads) (locked : (threads t).point.locked = some a)
    (other : u ≠ t) :
    (threads u).point.sole ≠ some a := fun sole => other (apart u t a sole locked)

theorem Apart.update (apart : Apart threads)
    (sole : ∀ a u, u ≠ t → x.point.sole = some a → (threads u).point.locked ≠ some a)
    (locked : ∀ a u, u ≠ t → x.point.locked = some a → (threads u).point.sole ≠ some a) :
    Apart (Function.update threads t x) := by
  intro u w a first second
  by_cases here : u = t
  · by_cases there : w = t
    · rw [here, there]
    · rw [here, Function.update_self] at first
      rw [Function.update_of_ne there] at second
      exact absurd second (sole a w there first)
  · rw [Function.update_of_ne here] at first
    by_cases there : w = t
    · rw [there, Function.update_self] at second
      exact absurd first (locked a u here second)
    · rw [Function.update_of_ne there] at second
      exact apart u w a first second

/-- A thread goes on with no more than it has. -/
theorem Apart.moves (apart : Apart threads)
    (sole : ∀ a, x.point.sole = some a → (threads t).point.sole = some a)
    (locked : ∀ a, x.point.locked = some a → (threads t).point.locked = some a) :
    Apart (Function.update threads t x) :=
  apart.update (fun a u other first second => other (apart t u a (sole a first) second).symm)
    fun a _ other first => apart.not_sole (locked a first) other

end Locks

/-! ### The table -/

/-- What is read of the objects, and of the table. -/
structure View where
  ids : Addr → Option Int
  nexts : Addr → Option (Option Addr)
  counts : Addr → Int
  fh : Fin nhash → Option Addr

/-- Only one object changes. -/
structure View.SameBut (fp : Addr) (v v' : View) : Prop where
  ids : ∀ a, a ≠ fp → v'.ids a = v.ids a
  nexts : ∀ a, a ≠ fp → v'.nexts a = v.nexts a
  counts : ∀ a, a ≠ fp → v'.counts a = v.counts a
  fh : v'.fh = v.fh

theorem View.SameBut.ids_eq {fp : Addr} {v v' : View} (same : v.SameBut fp v')
    (its : v'.ids fp = v.ids fp) :
    v'.ids = v.ids := funext fun a => if here : a = fp then here ▸ its else same.ids a here

theorem View.SameBut.nexts_eq {fp : Addr} {v v' : View} (same : v.SameBut fp v')
    (its : v'.nexts fp = v.nexts fp) :
    v'.nexts = v.nexts := funext fun a => if here : a = fp then here ▸ its else same.nexts a here

theorem View.SameBut.counts_eq {fp : Addr} {v v' : View} (same : v.SameBut fp v')
    (its : v'.counts fp = v.counts fp) :
    v'.counts = v.counts := funext fun a => if here : a = fp then here ▸ its else same.counts a here

section At

/-- What a thread may rely on at each place. -/
def At (v : View) (chain : Fin nhash → List Addr) (x : Thread) : Prop :=
  match x.point with
  | .allocLockHash id fp => v.ids fp = some id
  | .allocNext id fp => v.ids fp = some id
  | .allocHead id fp => v.ids fp = some id ∧ v.nexts fp = some (v.fh (hash id))
  | .holdLock fp => fp ∈ x.refs
  | .holdCount fp => fp ∈ x.refs
  | .findTest id p =>
    ∃ pre post, chain (hash id) = pre ++ post ∧ p = post.head? ∧ ∀ a ∈ pre, v.ids a ≠ some id
  | .findLock id fp => fp ∈ chain (hash id) ∧ v.ids fp = some id
  | .findCount id fp => fp ∈ chain (hash id) ∧ v.ids fp = some id
  | .findUnlock id fp => v.ids fp = some id
  | .findUnlockHash id (some fp) => v.ids fp = some id
  | .findUnlockHash id none => ∀ a ∈ chain (hash id), v.ids a ≠ some id
  | .releRecount fp => v.counts fp ≠ 1
  | .releUnlinkHead fp => ∃ id post, v.ids fp = some id ∧ chain (hash id) = fp :: post
  | .releWalk fp tfp =>
    ∃ id pre post, v.ids fp = some id ∧ chain (hash id) = pre ++ tfp :: post ∧ fp ∈ post
  | .releUnlink fp tfp =>
    ∃ id pre post, v.ids fp = some id ∧ chain (hash id) = pre ++ tfp :: fp :: post
  | .releCount fp => v.counts fp ≠ 1
  | _ => True

variable {v v' : View} {chain chain' : Fin nhash → List Addr} {x : Thread}

/-- What the others do leaves that as it is. -/
theorem At.others (here : At v chain x)
    (ids : ∀ a, (0 < x.owned a ∨ x.point.inHash = true ∧ ∃ i, a ∈ chain i) → v'.ids a = v.ids a)
    (counts : ∀ a, x.point.locked = some a → v'.counts a = v.counts a)
    (order : x.point.inHash = true → chain' = chain ∧ v'.fh = v.fh ∧ ∀ a, 0 < x.owned a →
      v'.nexts a = v.nexts a) :
    At v' chain' x := by
  obtain ⟨refs, point⟩ := x
  have mine {a : Addr} (owns : point.owns = some a) : v'.ids a = v.ids a :=
    ids a (.inl (Thread.owned_pos owns))
  cases point with
  | allocLockHash id fp => exact (mine rfl).trans here
  | allocNext id fp => exact (mine rfl).trans here
  | allocHead id fp =>
    obtain ⟨-, same, nexts⟩ := order rfl
    refine ⟨(mine rfl).trans here.1, ?_⟩
    rw [nexts fp (Thread.owned_pos rfl), same]
    exact here.2
  | holdLock fp => exact here
  | holdCount fp => exact here
  | findTest id p =>
    obtain ⟨pre, post, all, rest, not_⟩ := here
    obtain ⟨rfl, -, -⟩ := order rfl
    refine ⟨pre, post, all, rest, fun a member => ?_⟩
    rw [ids a (.inr ⟨rfl, hash id, by simp [all, member]⟩)]
    exact not_ a member
  | findLock id fp =>
    obtain ⟨rfl, -, -⟩ := order rfl
    exact ⟨here.1, (ids fp (.inr ⟨rfl, _, here.1⟩)).trans here.2⟩
  | findCount id fp =>
    obtain ⟨rfl, -, -⟩ := order rfl
    exact ⟨here.1, (ids fp (.inr ⟨rfl, _, here.1⟩)).trans here.2⟩
  | findUnlock id fp => exact (mine rfl).trans here
  | findUnlockHash id p =>
    cases p with
    | some fp => exact (mine rfl).trans here
    | none =>
      obtain ⟨rfl, -, -⟩ := order rfl
      intro a member
      rw [ids a (.inr ⟨rfl, _, member⟩)]
      exact here a member
  | releRecount fp => exact (counts fp rfl).trans_ne here
  | releUnlinkHead fp =>
    obtain ⟨rfl, -, -⟩ := order rfl
    obtain ⟨id, post, its, all⟩ := here
    exact ⟨id, post, (mine rfl).trans its, all⟩
  | releWalk fp tfp =>
    obtain ⟨rfl, -, -⟩ := order rfl
    obtain ⟨id, pre, post, its, all⟩ := here
    exact ⟨id, pre, post, (mine rfl).trans its, all⟩
  | releUnlink fp tfp =>
    obtain ⟨rfl, -, -⟩ := order rfl
    obtain ⟨id, pre, post, its, all⟩ := here
    exact ⟨id, pre, post, (mine rfl).trans its, all⟩
  | releCount fp => exact (counts fp rfl).trans_ne here
  | _ => trivial

/-- An object that a thread does not know may change. -/
theorem At.unknown {fp : Addr} (here : At v chain x) (same : v.SameBut fp v')
    (unowned : ¬ 0 < x.owned fp) (out : ∀ i, fp ∉ chain i) (unlocked : x.point.locked ≠ some fp) :
    At v' chain x := by
  refine here.others (fun a known => same.ids a ?_) (fun a its => same.counts a ?_)
    fun _ => ⟨rfl, same.fh, fun a known => same.nexts a ?_⟩
  · rintro rfl
    rcases known with owned | ⟨-, i, member⟩
    · exact unowned owned
    · exact out i member
  · rintro rfl
    exact unlocked its
  · rintro rfl
    exact unowned known

end At

section Counted

variable {Tid : Type} [Fintype Tid]

/-- What the objects and the table say of the threads. -/
structure Counted (v : View) (chain : Fin nhash → List Addr) (threads : Tid → Thread) : Prop where
  count : ∀ a, v.counts a = ∑ t, ((threads t).owned a : Int)
  live : ∀ a, 0 < v.counts a ↔ (v.ids a).isSome
  sole : ∀ t a, (threads t).point.sole = some a → v.counts a = 1
  linked : ∀ i, Linked v.nexts (v.fh i) (chain i)
  once : ∀ i, (chain i).Nodup
  member : ∀ i a, a ∈ chain i ↔ (∃ id, v.ids a = some id ∧ hash id = i) ∧
    ∀ t, (threads t).point.hidden ≠ some a
  here : ∀ t, At v chain (threads t)

variable {v v' : View} {chain chain' : Fin nhash → List Addr} {threads : Tid → Thread} {t u : Tid}
    {x : Thread}
  {fp a : Addr} {i : Fin nhash}

theorem Counted.owned_le (counted : Counted v chain threads) (t : Tid) (a : Addr) :
    ((threads t).owned a : Int) ≤ v.counts a := by
  rw [counted.count a]
  exact le_sum (f := fun u => ((threads u).owned a : Int)) (fun u => Int.natCast_nonneg _) t

theorem Counted.owned_live (counted : Counted v chain threads) (owned : 0 < (threads t).owned a) :
    (v.ids a).isSome := by
  have atLeast := counted.owned_le t a
  exact (counted.live a).mp (by omega)

theorem Counted.chain_live (counted : Counted v chain threads) (member : a ∈ chain i) :
    (v.ids a).isSome := by
  obtain ⟨⟨id, its, -⟩, -⟩ := (counted.member i a).mp member
  rw [its]
  rfl

/-- Nobody else has a reference where there is only one. -/
theorem Counted.alone [DecidableEq Tid] (counted : Counted v chain threads) (one : v.counts a = 1)
    (mine : 0 < (threads t).owned a) (other : u ≠ t) : (threads u).owned a = 0 := by
  have both := add_le_sum (f := fun u => ((threads u).owned a : Int))
    (fun u => Int.natCast_nonneg _) other.symm
  rw [← counted.count a, one] at both
  omega

theorem Counted.sole_alone [DecidableEq Tid] (counted : Counted v chain threads)
    (sole : (threads t).point.sole = some a)
    (other : u ≠ t) : (threads u).owned a = 0 :=
  counted.alone (counted.sole t a sole) (Thread.owned_pos (Point.owns_of_sole sole)) other

variable [DecidableEq Tid]

/-- The references of all, where those of one thread change. -/
theorem sum_owned (threads : Tid → Thread) (t : Tid) (x : Thread) (a : Addr) :
    ∑ u, ((Function.update threads t x u).owned a : Int) =
      ∑ u, ((threads u).owned a : Int) - (threads t).owned a + x.owned a := by
  have others (u : Tid) (other : u ≠ t) :
      ((Function.update threads t x u).owned a : Int) = (threads u).owned a := by
    rw [Function.update_of_ne other]
  have sum := sum_of_others others
  rwa [Function.update_self] at sum

omit [Fintype Tid] in
theorem hidden_update : (∀ u, (Function.update threads t x u).point.hidden ≠ some a) ↔
    x.point.hidden ≠ some a ∧ ∀ u, u ≠ t → (threads u).point.hidden ≠ some a :=
  Function.forall_update_iff threads fun _ y => y.point.hidden ≠ some a

omit [Fintype Tid] in
theorem hidden_self : (∀ u, (threads u).point.hidden ≠ some a) ↔
    (threads t).point.hidden ≠ some a ∧ ∀ u, u ≠ t → (threads u).point.hidden ≠ some a :=
  ⟨fun all => ⟨all t, fun u _ => all u⟩,
    fun ⟨mine, others⟩ u => if same : u = t then same ▸ mine else others u same⟩

theorem not_same {a fp : Addr} (other : a ≠ fp) :
    (some fp ≠ some a) ↔ (none : Option Addr) ≠ some a :=
  iff_of_true (fun same => other (Option.some.inj same).symm) nofun

/-- A thread that has `hashlock` changes the table. -/
theorem Counted.relinks (counted : Counted v chain threads) {hashlock : Option Tid}
    (owner : HashOwner hashlock threads)
    (inHash : (threads t).point.inHash = true) (ids : v'.ids = v.ids)
    (counts : v'.counts = v.counts)
    (owned : ∀ a, x.owned a = (threads t).owned a)
    (sole : ∀ a, x.point.sole = some a → v.counts a = 1)
    (linked : ∀ i, Linked v'.nexts (v'.fh i) (chain' i)) (once : ∀ i, (chain' i).Nodup)
    (member : ∀ i a, a ∈ chain' i ↔ (∃ id, v.ids a = some id ∧ hash id = i) ∧
      x.point.hidden ≠ some a ∧
      ∀ u, u ≠ t → (threads u).point.hidden ≠ some a)
    (here : At v' chain' x) : Counted v' chain' (Function.update threads t x) := by
  refine ⟨fun a => ?_, fun a => ?_, ?_, linked, once, fun i a => ?_, ?_⟩
  · rw [sum_owned, owned a, counts, counted.count a]
    ring
  · rw [counts, ids]
    exact counted.live a
  · rw [counts]
    exact (Function.forall_update_iff threads
      fun _ y => ∀ a, y.point.sole = some a → v.counts a = 1).mpr
      ⟨sole, fun u _ => counted.sole u⟩
  · rw [hidden_update, ids]
    exact member i a
  · refine (Function.forall_update_iff threads fun _ y => At v' chain' y).mpr
      ⟨here, fun u other => ?_⟩
    refine (counted.here u).others (fun a _ => congrFun ids a) (fun a _ => congrFun counts a)
      fun alsoInHash => ?_
    exact absurd (owner.alone alsoInHash inHash) other

/-- A thread goes on, and nothing else happens to the objects. -/
theorem Counted.moves (counted : Counted v chain threads)
    (owned : ∀ a, x.owned a = (threads t).owned a)
    (hidden : x.point.hidden = (threads t).point.hidden)
    (sole : ∀ a, x.point.sole = some a → v.counts a = 1) (here : At v chain x) :
    Counted v chain (Function.update threads t x) := by
  refine ⟨fun a => ?_, counted.live, ?_, counted.linked, counted.once, fun i a => ?_, ?_⟩
  · rw [sum_owned, owned a, counted.count a]
    ring
  · exact (Function.forall_update_iff threads
      fun _ y => ∀ a, y.point.sole = some a → v.counts a = 1).mpr
      ⟨sole, fun u _ => counted.sole u⟩
  · rw [counted.member i a, hidden_update, hidden, ← hidden_self]
  · exact (Function.forall_update_iff threads fun _ y => At v chain y).mpr
      ⟨here, fun u _ => counted.here u⟩

/-- A thread that has the lock of an object changes its count, as it has one reference more or
less. -/
theorem Counted.adds (counted : Counted v chain threads) {holder : Addr → Option Tid}
    (owner : FooOwner holder threads) (apart : Apart threads)
    (locked : (threads t).point.locked = some fp) (same : v.SameBut fp v')
    (ids : v'.ids fp = v.ids fp) (nexts : v'.nexts fp = v.nexts fp) {n : Int}
    (counts : v'.counts fp = v.counts fp + n) (live : 0 < v.counts fp)
    (positive : 0 < v.counts fp + n) (mine : (x.owned fp : Int) = (threads t).owned fp + n)
    (owned : ∀ a, a ≠ fp → x.owned a = (threads t).owned a)
    (hidden : x.point.hidden = (threads t).point.hidden) (sole : x.point.sole = none)
    (here : At v' chain x) : Counted v' chain (Function.update threads t x) := by
  refine ⟨fun a => ?_, fun a => ?_, ?_, fun i => ?_, counted.once, fun i a => ?_, ?_⟩
  · rw [sum_owned, ← counted.count a]
    by_cases its : a = fp
    · subst its
      rw [counts, mine]
      ring
    · rw [same.counts a its, owned a its]
      ring
  · rw [same.ids_eq ids, ← counted.live a]
    by_cases its : a = fp
    · subst its
      rw [counts]
      exact iff_of_true positive live
    · rw [same.counts a its]
  · refine (Function.forall_update_iff threads
      fun _ y => ∀ a, y.point.sole = some a → v'.counts a = 1).mpr
      ⟨by simp [sole], fun u other a its => ?_⟩
    rw [same.counts, counted.sole u a its]
    rintro rfl
    exact apart.not_sole locked other its
  · rw [same.nexts_eq nexts, same.fh]
    exact counted.linked i
  · rw [counted.member i a, hidden_update, hidden, ← hidden_self, same.ids_eq ids]
  · refine (Function.forall_update_iff threads fun _ y => At v' chain y).mpr
      ⟨here, fun u other => ?_⟩
    refine (counted.here u).others (fun a _ => congrFun (same.ids_eq ids) a)
      (fun a its => same.counts a ?_)
      fun _ => ⟨rfl, same.fh, fun a _ => congrFun (same.nexts_eq nexts) a⟩
    rintro rfl
    exact other (owner.alone its locked)

/-- An object that is not in the table leads to the first of its list. -/
theorem Counted.leads (counted : Counted v chain threads) {hashlock : Option Tid}
    (owner : HashOwner hashlock threads) (inHash : (threads t).point.inHash = true)
    (before : (threads t).point.hidden = some fp) (same : v.SameBut fp v')
    (ids : v'.ids fp = v.ids fp) (counts : v'.counts fp = v.counts fp)
    (owned : ∀ a, x.owned a = (threads t).owned a) (hidden : x.point.hidden = some fp)
    (sole : x.point.sole = some fp) (here : At v' chain x) :
    Counted v' chain (Function.update threads t x) := by
  refine counted.relinks owner inHash (same.ids_eq ids) (same.counts_eq counts) owned
    (fun a its => ?_) (fun i => ?_)
    counted.once (fun i a => ?_) here
  · obtain rfl := Option.some.inj (sole.symm.trans its)
    exact counted.sole t fp (Point.sole_of_hidden before)
  · rw [same.fh]
    refine (counted.linked i).congr fun a member => same.nexts a ?_
    rintro rfl
    exact ((counted.member i a).mp member).2 t before
  · rw [counted.member i a, hidden_self, before, hidden]

/-- It becomes the first one. -/
theorem Counted.pushes (counted : Counted v chain threads) {hashlock : Option Tid}
    (owner : HashOwner hashlock threads) (inHash : (threads t).point.inHash = true)
    (before : (threads t).point.hidden = some fp) {id : Int} (its : v.ids fp = some id)
    (next : v.nexts fp = some (v.fh (hash id))) (ids : v'.ids = v.ids)
    (nexts : v'.nexts = v.nexts) (counts : v'.counts = v.counts)
    (fh : v'.fh = Function.update v.fh (hash id) (some fp))
    (owned : ∀ a, x.owned a = (threads t).owned a) (hidden : x.point.hidden = none)
    (sole : x.point.sole = none)
    (here : At v' (Function.update chain (hash id) (fp :: chain (hash id))) x) :
    Counted v' (Function.update chain (hash id) (fp :: chain (hash id)))
      (Function.update threads t x) := by
  have out (i : Fin nhash) : fp ∉ chain i :=
    fun member => ((counted.member i fp).mp member).2 t before
  refine counted.relinks owner inHash ids counts owned (by simp [sole]) (fun i => ?_) (fun i => ?_)
    (fun i a => ?_) here
  · rw [nexts, fh]
    by_cases same : i = hash id
    · subst same
      rw [Function.update_self, Function.update_self]
      exact (counted.linked _).cons next
    · rw [Function.update_of_ne same, Function.update_of_ne same]
      exact counted.linked i
  · by_cases same : i = hash id
    · subst same
      rw [Function.update_self]
      exact List.nodup_cons.mpr ⟨out _, counted.once _⟩
    · rw [Function.update_of_ne same]
      exact counted.once i
  · rw [hidden]
    by_cases me : a = fp
    · subst me
      have others (u : Tid) (other : u ≠ t) : (threads u).point.hidden ≠ some a := by
        intro also
        have none_ := counted.sole_alone (Point.sole_of_hidden before) other
        exact absurd (Thread.owned_pos (Point.owns_of_sole (Point.sole_of_hidden also))) (by omega)
      rw [and_iff_left ⟨nofun, others⟩]
      by_cases same : i = hash id
      · subst same
        rw [Function.update_self]
        exact iff_of_true List.mem_cons_self ⟨id, its, rfl⟩
      · rw [Function.update_of_ne same]
        refine iff_of_false (out i) ?_
        rintro ⟨id', its', rfl⟩
        exact same (by rw [Option.some.inj (its.symm.trans its')])
    · have back := counted.member i a
      rw [hidden_self (t := t), before] at back
      rw [not_same me] at back
      rw [← back]
      by_cases same : i = hash id
      · subst same
        rw [Function.update_self, List.mem_cons, or_iff_right me]
      · rw [Function.update_of_ne same]

/-- An object is taken out of its list. -/
theorem Counted.takesOut (counted : Counted v chain threads) {hashlock : Option Tid}
    (owner : HashOwner hashlock threads) (inHash : (threads t).point.inHash = true)
    (before : (threads t).point.sole = some fp) (unhidden : (threads t).point.hidden = none)
    {pre post : List Addr} (all : chain i = pre ++ fp :: post) (ids : v'.ids = v.ids)
    (counts : v'.counts = v.counts) (owned : ∀ a, x.owned a = (threads t).owned a)
    (hidden : x.point.hidden = some fp) (sole : x.point.sole = some fp)
    (linked : ∀ j, Linked v'.nexts (v'.fh j) (Function.update chain i (pre ++ post) j))
    (here : At v' (Function.update chain i (pre ++ post)) x) :
    Counted v' (Function.update chain i (pre ++ post)) (Function.update threads t x) := by
  have once := counted.once i
  rw [all] at once
  have out : fp ∉ pre ++ post := (List.nodup_middle.mp once).notMem
  refine counted.relinks owner inHash ids counts owned (fun a its => ?_) linked (fun j => ?_)
    (fun j a => ?_) here
  · obtain rfl := Option.some.inj (sole.symm.trans its)
    exact counted.sole t fp before
  · by_cases same : j = i
    · subst same
      rw [Function.update_self]
      exact (List.nodup_middle.mp once).of_cons
    · rw [Function.update_of_ne same]
      exact counted.once j
  · have back := counted.member j a
    rw [hidden_self (t := t), unhidden] at back
    rw [hidden]
    by_cases me : a = fp
    · subst me
      refine iff_of_false ?_ fun ⟨_, not_, _⟩ => not_ rfl
      by_cases same : j = i
      · subst same
        rwa [Function.update_self]
      · rw [Function.update_of_ne same]
        intro member
        obtain ⟨⟨id, its, atJ⟩, -⟩ := (counted.member j a).mp member
        obtain ⟨⟨id', its', atI⟩, -⟩ := (counted.member i a).mp (by simp [all])
        rw [its] at its'
        obtain rfl := Option.some.inj its'
        exact same (atJ.symm.trans atI)
    · rw [not_same me, ← back]
      by_cases same : j = i
      · subst same
        rw [Function.update_self, all, List.mem_append, List.mem_append, List.mem_cons,
          or_iff_right me]
      · rw [Function.update_of_ne same]

/-- An object is made. -/
theorem Counted.mallocs (counted : Counted v chain threads) (fresh : v.ids fp = none)
    (unlocked : ∀ u, (threads u).point.locked ≠ some fp)
    (before : (threads t).point.hidden = none) (same : v.SameBut fp v') (ids : (v'.ids fp).isSome)
    (counts : v'.counts fp = 1) (mine : x.owned fp = (threads t).owned fp + 1)
    (owned : ∀ a, a ≠ fp → x.owned a = (threads t).owned a) (hidden : x.point.hidden = some fp)
    (sole : x.point.sole = some fp) (here : At v' chain x) :
    Counted v' chain (Function.update threads t x) := by
  have dead (u : Tid) : ¬ 0 < (threads u).owned fp :=
    fun owned => by simpa [fresh] using counted.owned_live owned
  have out (i : Fin nhash) : fp ∉ chain i :=
    fun member => by simpa [fresh] using counted.chain_live member
  have zero : ∑ u, ((threads u).owned fp : Int) = 0 :=
    Finset.sum_eq_zero fun u _ => Int.natCast_eq_zero.mpr (Nat.eq_zero_of_not_pos (dead u))
  refine ⟨fun a => ?_, fun a => ?_, ?_, fun i => ?_, counted.once, fun i a => ?_, ?_⟩
  · rw [sum_owned]
    by_cases its : a = fp
    · subst its
      rw [counts, zero, mine]
      push_cast
      ring
    · rw [same.counts a its, owned a its, counted.count a]
      ring
  · by_cases its : a = fp
    · subst its
      rw [counts]
      exact iff_of_true (by decide) ids
    · rw [same.counts a its, same.ids a its]
      exact counted.live a
  · refine (Function.forall_update_iff threads
      fun _ y => ∀ a, y.point.sole = some a → v'.counts a = 1).mpr
      ⟨fun a its => ?_, fun u _ a its => ?_⟩
    · obtain rfl := Option.some.inj (sole.symm.trans its)
      exact counts
    · rw [same.counts, counted.sole u a its]
      rintro rfl
      exact dead u (Thread.owned_pos (Point.owns_of_sole its))
  · rw [same.fh]
    refine (counted.linked i).congr fun a member => same.nexts a ?_
    rintro rfl
    exact out i member
  · rw [hidden_update, hidden]
    by_cases its : a = fp
    · subst its
      exact iff_of_false (out i) fun ⟨_, not_, _⟩ => not_ rfl
    · rw [counted.member i a, same.ids a its, hidden_self (t := t), before, not_same its]
  · refine (Function.forall_update_iff threads fun _ y => At v' chain y).mpr ⟨here, fun u _ => ?_⟩
    exact (counted.here u).unknown same (dead u) out (unlocked u)

/-- An object that nobody else knows is freed. -/
theorem Counted.frees (counted : Counted v chain threads)
    (before : (threads t).point.hidden = some fp)
    (unlocked : ∀ u, (threads u).point.locked ≠ some fp) (same : v.SameBut fp v')
    (ids : v'.ids fp = none) (counts : v'.counts fp = 0)
    (mine : (threads t).owned fp = x.owned fp + 1)
    (owned : ∀ a, a ≠ fp → x.owned a = (threads t).owned a) (hidden : x.point.hidden = none)
    (sole : x.point.sole = none) (here : At v' chain x) :
    Counted v' chain (Function.update threads t x) := by
  have one := counted.sole t fp (Point.sole_of_hidden before)
  have dead (u : Tid) (other : u ≠ t) : ¬ 0 < (threads u).owned fp := by
    rw [counted.sole_alone (Point.sole_of_hidden before) other]
    exact Nat.lt_irrefl 0
  have out (i : Fin nhash) : fp ∉ chain i :=
    fun member => ((counted.member i fp).mp member).2 t before
  refine ⟨fun a => ?_, fun a => ?_, ?_, fun i => ?_, counted.once, fun i a => ?_, ?_⟩
  · rw [sum_owned, ← counted.count a]
    by_cases its : a = fp
    · subst its
      rw [counts, one, mine]
      push_cast
      ring
    · rw [same.counts a its, owned a its]
      ring
  · by_cases its : a = fp
    · subst its
      rw [counts, ids]
      exact iff_of_false (by decide) nofun
    · rw [same.counts a its, same.ids a its]
      exact counted.live a
  · refine (Function.forall_update_iff threads
      fun _ y => ∀ a, y.point.sole = some a → v'.counts a = 1).mpr
      ⟨by simp [sole], fun u other a its => ?_⟩
    rw [same.counts, counted.sole u a its]
    rintro rfl
    exact dead u other (Thread.owned_pos (Point.owns_of_sole its))
  · rw [same.fh]
    refine (counted.linked i).congr fun a member => same.nexts a ?_
    rintro rfl
    exact out i member
  · rw [hidden_update, hidden]
    by_cases its : a = fp
    · subst its
      refine iff_of_false (out i) ?_
      rintro ⟨⟨id, its, -⟩, -⟩
      rw [ids] at its
      cases its
    · rw [counted.member i a, same.ids a its, hidden_self (t := t), before, not_same its]
  · refine (Function.forall_update_iff threads fun _ y => At v' chain y).mpr
      ⟨here, fun u other => ?_⟩
    exact (counted.here u).unknown same (dead u other) out (unlocked u)

end Counted

end Apue.Mutex2
