import Mathlib.Data.List.Basic
import Mathlib.Data.List.Forall2
import Mathlib.Order.Defs.PartialOrder

/-!
# Numbering keys as they are met

A `FreshNaming` gives each key it has met its own number, counting from one. It only ever grows:
a new key takes the next number and known keys keep theirs. So the numbers handed out over any run
of requests are those of the final naming, where they are a function of the key and an injective
one.
-/

structure FreshNaming (κ : Type) where
  count : Nat
  index : κ → Option Nat
  bounded : ∀ k i, index k = some i → 0 < i ∧ i ≤ count
  injective : ∀ k l i, index k = some i → index l = some i → k = l

namespace FreshNaming

variable {κ : Type}

def empty : FreshNaming κ where
  count := 0
  index _ := none
  bounded := by simp
  injective := by simp

/-- Every number given stays given. -/
instance : LE (FreshNaming κ) where
  le n m := ∀ k i, n.index k = some i → m.index k = some i

instance : Preorder (FreshNaming κ) where
  le_refl _ _ _ h := h
  le_trans _ _ _ first second k i h := second k i (first k i h)

/-- Two keys a naming knows are equal exactly when their numbers are. -/
theorem index_eq_iff (n : FreshNaming κ) (k l : κ) (i j : Nat) (hk : n.index k = some i)
    (hl : n.index l = some j) : k = l ↔ i = j := by
  constructor
  · rintro rfl
    exact Option.some.inj (hk.symm.trans hl)
  · rintro rfl
    exact n.injective k l i hk hl

variable [DecidableEq κ]

/-- Give a new key the next number. -/
def extend (n : FreshNaming κ) (key : κ) : FreshNaming κ where
  count := n.count + 1
  index k := if k = key then some (n.count + 1) else n.index k
  bounded := by
    intro k i h
    split at h
    -- the new number is the new count
    · cases h; omega
    · have := n.bounded k i h; omega
  injective := by
    intro k l i hk hl
    split at hk <;> split at hl
    -- the old numbers stop at the old count, so the new one is nobody else's
    · simp_all
    · cases hk; have := n.bounded l _ hl; omega
    · cases hl; have := n.bounded k _ hk; omega
    · exact n.injective k l i hk hl

theorem le_extend (n : FreshNaming κ) (key : κ) (fresh : n.index key = none) :
    n ≤ n.extend key := by
  intro k i h
  have other : k ≠ key := by
    rintro rfl
    simp [fresh] at h
  simpa [extend, other] using h

@[simp] theorem extend_count (n : FreshNaming κ) (key : κ) :
    (n.extend key).count = n.count + 1 := rfl

theorem extend_index (n : FreshNaming κ) (key k : κ) :
    (n.extend key).index k = if k = key then some (n.count + 1) else n.index k := rfl

/-! ### Requests -/

/-- The number of a key, which is a new one for a new key. -/
def request (n : FreshNaming κ) (key : κ) : FreshNaming κ × Nat :=
  match n.index key with
  | some i => (n, i)
  | none => (n.extend key, n.count + 1)

def requests (n : FreshNaming κ) : List κ → FreshNaming κ × List Nat
  | [] => (n, [])
  | key :: keys =>
    let first := n.request key
    let rest := first.1.requests keys
    (rest.1, first.2 :: rest.2)

/-- A naming gives the keys these numbers. -/
def Numbers (n : FreshNaming κ) (keys : List κ) (numbers : List Nat) : Prop :=
  List.Forall₂ (fun key i => n.index key = some i) keys numbers

omit [DecidableEq κ] in
theorem Numbers.mono {n m : FreshNaming κ} (up : n ≤ m) {keys : List κ} {numbers : List Nat}
    (given : n.Numbers keys numbers) : m.Numbers keys numbers :=
  List.Forall₂.imp (fun key i known => up key i known) given

omit [DecidableEq κ] in
/-- Lists of keys are equal exactly when their numbers are. -/
theorem Numbers.eq_iff {n : FreshNaming κ} {keys others : List κ} {numbers others' : List Nat}
    (given : n.Numbers keys numbers) (given' : n.Numbers others others') :
    keys = others ↔ numbers = others' := by
  induction given generalizing others others' with
  | nil => cases given' <;> simp
  | cons first rest ih =>
    cases given' with
    | nil => simp
    | cons first' rest' =>
      rw [List.cons.injEq, List.cons.injEq, n.index_eq_iff _ _ _ _ first first', ih rest']

omit [DecidableEq κ] in
/-- Two namings that give the same numbers agree on each of the keys. -/
theorem Numbers.agree {n m : FreshNaming κ} {keys : List κ} {numbers : List Nat}
    (given : n.Numbers keys numbers) (given' : m.Numbers keys numbers) (key : κ)
    (member : key ∈ keys) :
    ∃ i, n.index key = some i ∧ m.index key = some i := by
  induction given with
  | nil => cases member
  | cons first rest ih =>
    cases given' with
    | cons first' rest' =>
      rcases List.mem_cons.mp member with rfl | later
      · exact ⟨_, first, first'⟩
      · exact ih rest' later

theorem request_known (n : FreshNaming κ) (key : κ) (i : Nat) (known : n.index key = some i) :
    n.request key = (n, i) := by
  rw [request, known]

theorem request_new (n : FreshNaming κ) (key : κ) (fresh : n.index key = none) :
    n.request key = (n.extend key, n.count + 1) := by
  rw [request, fresh]

theorem request_spec (n : FreshNaming κ) (key : κ) :
    n ≤ (n.request key).1 ∧ (n.request key).1.index key = some (n.request key).2 := by
  cases known : n.index key with
  | some i =>
    rw [request_known n key i known]
    exact ⟨le_refl n, known⟩
  | none =>
    rw [request_new n key known]
    exact ⟨n.le_extend key known, by rw [extend_index, if_pos rfl]⟩

/-- The numbers given out in a run are those of the naming at its end. -/
theorem requests_spec (n : FreshNaming κ) (keys : List κ) :
    n ≤ (n.requests keys).1 ∧ (n.requests keys).1.Numbers keys (n.requests keys).2 := by
  induction keys generalizing n with
  | nil => exact ⟨le_refl n, .nil⟩
  | cons key keys ih =>
    obtain ⟨up, known⟩ := n.request_spec key
    obtain ⟨further, rest⟩ := ih (n.request key).1
    exact ⟨le_trans up further, .cons (further _ _ known) rest⟩

theorem length_requests (n : FreshNaming κ) (keys : List κ) :
    (n.requests keys).2.length = keys.length :=
  (n.requests_spec keys).2.length_eq.symm

/-- The namings are the same but for two keys. -/
def SameBut (k l : κ) (n m : FreshNaming κ) : Prop :=
  n.count = m.count ∧ ∀ x, x ≠ k → x ≠ l → n.index x = m.index x

theorem SameBut.request {k l : κ} {n m : FreshNaming κ} (same : SameBut k l n m) (key : κ)
    (notK : key ≠ k) (notL : key ≠ l) :
    (n.request key).2 = (m.request key).2 ∧ SameBut k l (n.request key).1 (m.request key).1 := by
  obtain ⟨count, others⟩ := same
  have here := others key notK notL
  cases known : m.index key with
  | some i =>
    rw [known] at here
    rw [request_known n key i here, request_known m key i known]
    exact ⟨rfl, count, others⟩
  | none =>
    rw [known] at here
    rw [request_new n key here, request_new m key known]
    refine ⟨congrArg (· + 1) count, congrArg (· + 1) count, fun x notK notL => ?_⟩
    rw [extend_index, extend_index, count, others x notK notL]

theorem SameBut.requests {k l : κ} {n m : FreshNaming κ} (same : SameBut k l n m) (keys : List κ)
    (notK : k ∉ keys) (notL : l ∉ keys) : (n.requests keys).2 = (m.requests keys).2 := by
  induction keys generalizing n m with
  | nil => rfl
  | cons key keys ih =>
    rw [List.mem_cons, not_or] at notK notL
    obtain ⟨number, same'⟩ := same.request key (Ne.symm notK.1) (Ne.symm notL.1)
    rw [FreshNaming.requests, FreshNaming.requests, number, ih same' notK.2 notL.2]

/-- Two requests that start with different keys and go on alike give the same numbers only if both
keys are new, and do not come again. -/
theorem requests_cons_eq_iff (n : FreshNaming κ) (k l : κ) (keys : List κ) (other : k ≠ l) :
    (n.requests (k :: keys)).2 = (n.requests (l :: keys)).2 ↔
      (n.index k = none ∧ k ∉ keys) ∧ n.index l = none ∧ l ∉ keys := by
  -- one of two keys with the same number is new
  have fresh (a b : κ) (apart : a ≠ b) (same : (n.request a).2 = (n.request b).2) :
      n.index a = none := by
    cases known : n.index a with
    | none => rfl
    | some i =>
      rw [request_known n a i known] at same
      cases known' : n.index b with
      | some j =>
        rw [request_known n b j known'] at same
        exact absurd ((n.index_eq_iff a b i j known known').mpr same) apart
      | none =>
        rw [request_new n b known'] at same
        have bound := n.bounded a i known
        simp only at same
        omega
  -- and so it does not come again
  have once (a b : κ) (apart : a ≠ b)
    (numbers : (n.requests (a :: keys)).2 = (n.requests (b :: keys)).2) :
      a ∉ keys := by
    intro member
    obtain ⟨-, givenA⟩ := n.requests_spec (a :: keys)
    obtain ⟨-, givenB⟩ := n.requests_spec (b :: keys)
    rw [← numbers] at givenB
    cases givenA with
    | cons firstA restA =>
      cases givenB with
      | cons firstB restB =>
        -- the second naming would give both of them the number
        obtain ⟨i, numberA, numberB⟩ := Numbers.agree restA restB a member
        rw [firstA] at numberA
        rw [← numberA] at numberB
        exact apart (((n.requests (b :: keys)).1.index_eq_iff a b _ _ numberB firstB).mpr rfl)
  constructor
  · intro numbers
    have first : (n.request k).2 = (n.request l).2 := (List.cons.inj numbers).1
    exact ⟨⟨fresh k l other first, once k l other numbers⟩, fresh l k other.symm first.symm,
      once l k other.symm numbers.symm⟩
  · rintro ⟨⟨freshK, notK⟩, freshL, notL⟩
    have same : SameBut k l (n.extend k) (n.extend l) :=
      ⟨rfl, fun x notK notL => by rw [extend_index, extend_index, if_neg notK, if_neg notL]⟩
    rw [requests, requests, request_new n k freshK, request_new n l freshL]
    simp only [same.requests keys notK notL]

end FreshNaming
