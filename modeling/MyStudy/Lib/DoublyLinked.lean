import Mathlib

/-!
# Doubly linked lists

Nodes that point to the next one and to the one before, between a head and a tail. Turned round,
such a list is one again.
-/

structure Links (A : Type) where
  next : A → Option A
  prev : A → Option A
  head : Option A
  tail : Option A

namespace Links

variable {A : Type}

def empty : Links A := ⟨fun _ => none, fun _ => none, none, none⟩

def turned (d : Links A) : Links A := ⟨d.prev, d.next, d.tail, d.head⟩

/-- The nodes of a list are linked, whatever other nodes point to. -/
structure Lists (d : Links A) (l : List A) : Prop where
  nodup : l.Nodup
  head : d.head = l.head?
  tail : d.tail = l.getLast?
  next : ∀ pre a post, l = pre ++ a :: post → d.next a = post.head?
  prev : ∀ pre a post, l = pre ++ a :: post → d.prev a = pre.getLast?

variable {d : Links A} {l pre post : List A} {a b : A}

theorem lists_empty (d : Links A) (head : d.head = none) (tail : d.tail = none) : d.Lists [] :=
  ⟨List.nodup_nil, head, tail,
    fun _ _ _ split => by simp at split, fun _ _ _ split => by simp at split⟩

theorem Lists.turned (lists : d.Lists l) : d.turned.Lists l.reverse := by
  have back {pre post : List A} {a : A} (split : l.reverse = pre ++ a :: post) :
      l = post.reverse ++ a :: pre.reverse := by
    rw [← List.reverse_reverse l, split]
    simp
  refine ⟨List.nodup_reverse.mpr lists.nodup, ?_, ?_, fun pre a post split => ?_,
    fun pre a post split => ?_⟩
  · rw [List.head?_reverse]
    exact lists.tail
  · rw [List.getLast?_reverse]
    exact lists.head
  · rw [← List.getLast?_reverse]
    exact lists.prev _ _ _ (back split)
  · rw [← List.head?_reverse]
    exact lists.next _ _ _ (back split)

/-- The first node of a list that is not empty has no one before it. -/
theorem Lists.prev_none (lists : d.Lists (pre ++ a :: post)) :
    d.prev a = none ↔ d.head = some a := by
  rw [lists.prev _ _ _ rfl, lists.head, List.getLast?_eq_none_iff]
  cases pre with
  | nil => simp
  | cons b pre =>
    have other : b ≠ a := by
      rintro rfl
      simpa using lists.nodup
    simp [other]

theorem Lists.next_none (lists : d.Lists (pre ++ a :: post)) :
    d.next a = none ↔ d.tail = some a := by
  have back := lists.turned
  rw [List.reverse_append, List.reverse_cons, List.append_assoc] at back
  exact back.prev_none

variable [DecidableEq A]

/-! ### Single writes -/

def setNext (d : Links A) (a : A) (b : Option A) : Links A :=
  { d with next := Function.update d.next a b }

def setPrev (d : Links A) (a : A) (b : Option A) : Links A :=
  { d with prev := Function.update d.prev a b }

def setHead (d : Links A) (a : Option A) : Links A := { d with head := a }

def setTail (d : Links A) (a : Option A) : Links A := { d with tail := a }

/-! ### A node in front -/

def insert (d : Links A) (a : A) : Links A where
  next := Function.update d.next a d.head
  prev := match d.head with
    | none => Function.update d.prev a none
    | some b => Function.update (Function.update d.prev a none) b (some a)
  head := some a
  tail := match d.head with
    | none => some a
    | some _ => d.tail

theorem Lists.insert (lists : d.Lists l) (new : a ∉ l) : (d.insert a).Lists (a :: l) := by
  refine ⟨List.nodup_cons.mpr ⟨new, lists.nodup⟩, rfl, ?_, fun pre b post split => ?_,
    fun pre b post split => ?_⟩
  · cases l with
    | nil => simp [Links.insert, lists.head]
    | cons b l => simp [Links.insert, lists.head, lists.tail]
  · cases pre with
    | nil =>
      obtain ⟨rfl, rfl⟩ := List.cons.inj split
      simp [Links.insert, lists.head]
    | cons c pre =>
      obtain ⟨rfl, rfl⟩ := List.cons.inj split
      have other : b ≠ a := by
        rintro rfl
        simp at new
      have same : (d.insert a).next b = d.next b := Function.update_of_ne other _ _
      rw [same]
      exact lists.next _ _ _ rfl
  · cases pre with
    | nil =>
      obtain ⟨rfl, rfl⟩ := List.cons.inj split
      cases l with
      | nil => simp [Links.insert, lists.head]
      | cons c l =>
        have other : a ≠ c := by
          rintro rfl
          simp at new
        simp [Links.insert, lists.head, Function.update_of_ne other]
    | cons c pre =>
      obtain ⟨rfl, rfl⟩ := List.cons.inj split
      have other : b ≠ a := by
        rintro rfl
        simp at new
      cases pre with
      | nil => simp [Links.insert, lists.head]
      | cons c pre =>
        have behind : b ≠ c := by
          rintro rfl
          simpa using lists.nodup
        have same := lists.prev (c :: pre) b post rfl
        simp [Links.insert, lists.head, Function.update_of_ne behind, Function.update_of_ne other,
          same]

/-! ### A node behind -/

def append (d : Links A) (a : A) : Links A := (d.turned.insert a).turned

theorem Lists.append (lists : d.Lists l) (new : a ∉ l) : (d.append a).Lists (l ++ [a]) := by
  have absent : a ∉ l.reverse := fun member => new (List.mem_reverse.mp member)
  have back := (lists.turned.insert absent).turned
  rwa [List.reverse_cons, List.reverse_reverse] at back

/-! ### A node taken out -/

def remove (d : Links A) (a : A) : Links A where
  next := match d.prev a with
    | none => d.next
    | some b => Function.update d.next b (d.next a)
  prev := match d.next a with
    | none => d.prev
    | some b => Function.update d.prev b (d.prev a)
  head := match d.prev a with
    | none => d.next a
    | some _ => d.head
  tail := match d.next a with
    | none => d.prev a
    | some _ => d.tail

theorem remove_turned (d : Links A) (a : A) : d.turned.remove a = (d.remove a).turned := rfl

theorem Lists.remove_head (lists : d.Lists (pre ++ a :: post)) :
    (d.remove a).head = (pre ++ post).head? := by
  have before := lists.prev _ _ _ rfl
  have behind := lists.next _ _ _ rfl
  cases pre with
  | nil => simp [Links.remove, before, behind]
  | cons b pre =>
    have first : d.head = some b := lists.head
    cases found : d.prev a with
    | none => simp [before] at found
    | some c => simp [Links.remove, found, first]

theorem Lists.remove_next (lists : d.Lists (pre ++ a :: post)) {pre' post' : List A}
    (split : pre ++ post = pre' ++ b :: post') : (d.remove a).next b = post'.head? := by
  have before := lists.prev _ _ _ rfl
  have behind := lists.next _ _ _ rfl
  -- a node that is not the last one before `a` points where it did
  have stays (other : ∀ c, pre.getLast? = some c → b ≠ c) : (d.remove a).next b = d.next b := by
    cases found : d.prev a with
    | none => simp [Links.remove, found]
    | some c => simp [Links.remove, found, Function.update_of_ne (other c (before ▸ found))]
  have apart {c : A} (first : c ∈ pre) (second : c ∈ post) : False := by
    have once := List.nodup_append.mp lists.nodup
    exact once.2.2 c first c (List.mem_cons_of_mem a second) rfl
  rcases List.append_eq_append_iff.mp split with ⟨m, rfl, rfl⟩ | ⟨m, rfl, rest⟩
  · rw [stays fun c last same => apart (same ▸ List.mem_of_getLast? last) (by simp)]
    exact lists.next (pre ++ a :: m) b post' (by simp)
  · cases m with
    | nil =>
      rw [List.nil_append] at rest
      subst rest
      rw [stays fun c last same => apart (same ▸ List.mem_of_getLast? last) (by simp)]
      exact lists.next (pre' ++ [] ++ [a]) b post' (by simp)
    | cons c m =>
      obtain ⟨rfl, rfl⟩ := List.cons.inj rest
      rcases List.eq_nil_or_concat' m with rfl | ⟨m, e, rfl⟩
      · have last : d.prev a = some b := by simpa using before
        simp [Links.remove, last, behind]
      · have once : (pre' ++ b :: (m ++ [e])).Nodup := (List.nodup_append.mp lists.nodup).1
        have other : b ≠ e := by
          rintro rfl
          have twice := (List.nodup_append.mp once).2.1
          simp at twice
        have ends : (pre' ++ b :: (m ++ [e])).getLast? = some e := by
          have apart : pre' ++ b :: (m ++ [e]) = (pre' ++ b :: m) ++ [e] := by simp
          rw [apart]
          exact List.getLast?_concat
        rw [stays fun c last same => other (same.trans (Option.some.inj (last.symm.trans ends)))]
        have leads := lists.next pre' b (m ++ [e] ++ a :: post) (by simp)
        rw [leads]
        cases m <;> simp

theorem Lists.remove (lists : d.Lists (pre ++ a :: post)) : (d.remove a).Lists (pre ++ post) := by
  have back := lists.turned
  rw [List.reverse_append, List.reverse_cons, List.append_assoc, List.singleton_append] at back
  refine ⟨?_, lists.remove_head, ?_, fun _ _ _ split => lists.remove_next split,
    fun pre' b post' split => ?_⟩
  · exact lists.nodup.sublist ((List.sublist_cons_self a post).append_left pre)
  · have turned := back.remove_head
    rw [remove_turned, ← List.reverse_append, List.head?_reverse] at turned
    exact turned
  · have reversed : post.reverse ++ pre.reverse = post'.reverse ++ b :: pre'.reverse := by
      rw [← List.reverse_append, split]
      simp
    have turned := back.remove_next reversed
    rw [List.head?_reverse] at turned
    exact turned

/-! ### Finding a node -/

/-- The first node that is looked for, from one on; `none` where the walk takes too long. -/
def find (d : Links A) (p : A → Bool) : Nat → Option A → Option (Option A)
  | _, none => some none
  | 0, some _ => none
  | most + 1, some a => if p a then some (some a) else d.find p most (d.next a)

omit [DecidableEq A] in
/-- The node behind one is another one. -/
theorem Lists.next_ne (lists : d.Lists (pre ++ a :: post)) : d.next a ≠ some a := by
  rw [lists.next _ _ _ rfl]
  intro same
  have member : a ∈ post := List.mem_of_head? same
  exact (List.nodup_cons.mp (List.nodup_append.mp lists.nodup).2.1).1 member

omit [DecidableEq A] in
theorem Lists.prev_ne (lists : d.Lists (pre ++ a :: post)) : d.prev a ≠ some a := by
  have back := lists.turned
  rw [List.reverse_append, List.reverse_cons, List.append_assoc] at back
  exact back.next_ne

omit [DecidableEq A] in
theorem Lists.find (lists : d.Lists (pre ++ post)) (p : A → Bool) {most : Nat}
    (room : post.length ≤ most) :
    d.find p most post.head? = some (post.find? p) := by
  induction post generalizing pre most with
  | nil => cases most <;> rfl
  | cons a post ih =>
    obtain ⟨more, rfl⟩ : ∃ more, most = more + 1 := ⟨most - 1, by simp at room; omega⟩
    rw [List.head?_cons, Links.find, List.find?_cons]
    cases p a with
    | true => rfl
    | false =>
      rw [lists.next _ _ _ rfl]
      have later : d.Lists ((pre ++ [a]) ++ post) := by simpa using lists
      exact ih later (by simpa using room)

end Links
