import Mathlib.Data.List.Nodup
import Mathlib.Logic.Function.Basic
import Mathlib.Logic.Relation

/-!
# Linearizable histories

Processes make calls of an object that they share, and each waits for its reply. A history is
linearizable if its calls can be put into one order that an object which serves them one by one
could have had: it gives them the same replies, and calls that did not overlap stay in order.
-/

namespace Linearizability

variable {Pid Call Reply σ : Type}

inductive Event (Pid Call Reply : Type) where
  | call (p : Pid) (c : Call)
  | reply (p : Pid) (r : Reply)
  deriving DecidableEq, Repr

def Event.pid : Event Pid Call Reply → Pid
  | .call p _ => p
  | .reply p _ => p

abbrev History (Pid Call Reply : Type) := List (Event Pid Call Reply)

/-! ### Histories -/

section Histories

variable (h : History Pid Call Reply)

def callAt (i : Nat) : Option Call :=
  match h[i]? with
  | some (.call _ c) => some c
  | _ => none

/-- The call at `i` has the reply at `j`, which is the next event of its process. -/
def Answered (i j : Nat) (r : Reply) : Prop :=
  ∃ p c, h[i]? = some (.call p c) ∧ i < j ∧ h[j]? = some (.reply p r) ∧
    ∀ k e, i < k → k < j → h[k]? = some e → e.pid ≠ p

variable (apply : Call → σ → Reply × σ) (init : σ)

/-- The object when it has served these calls. -/
def served (order : List Nat) : σ :=
  (order.filterMap (callAt h)).foldl (fun s c => (apply c s).2) init

/-- An order in which the calls may have been served. A call without a reply may be left out. -/
structure Linearization (order : List Nat) : Prop where
  once : order.Nodup
  calls : ∀ i ∈ order, (callAt h i).isSome
  complete : ∀ i j r, Answered h i j r → i ∈ order
  processes : ∀ i k p c d, h[i]? = some (.call p c) → h[k]? = some (.call p d) → i < k → k ∈ order →
    [i, k].Sublist order
  realTime : ∀ i j r, Answered h i j r → ∀ k ∈ order, j < k → [i, k].Sublist order
  replies : ∀ i j r, Answered h i j r → ∀ c ∈ callAt h i, ∀ pre post, order = pre ++ i :: post →
    (apply c (served h apply init pre)).1 = r

def Linearizable : Prop := ∃ order, Linearization h apply init order

end Histories

/-! ### An event more -/

section Append

variable {h : History Pid Call Reply} {e : Event Pid Call Reply} {i j : Nat}

theorem getElem?_snoc (x : Event Pid Call Reply) :
    (h ++ [e])[i]? = some x ↔ h[i]? = some x ∨ (i = h.length ∧ x = e) := by
  rw [List.getElem?_append]
  split
  next inside => simp [Nat.ne_of_lt inside]
  next outside =>
    rw [List.getElem?_eq_none (Nat.le_of_not_lt outside)]
    rcases Nat.lt_or_eq_of_le (Nat.le_of_not_lt outside) with behind | last
    · rw [List.getElem?_eq_none (by rw [List.length_singleton]; omega)]
      simp [Nat.ne_of_gt behind]
    · simp [← last, eq_comm]

theorem getElem?_old (inside : i < h.length) : (h ++ [e])[i]? = h[i]? :=
  List.getElem?_append_left inside

theorem callAt_old (inside : i < h.length) : callAt (h ++ [e]) i = callAt h i := by
  rw [callAt, callAt, getElem?_old inside]

theorem callAt_eq_some {c : Call} : callAt h i = some c ↔ ∃ p, h[i]? = some (.call p c) := by
  rw [callAt]
  split
  next p c' here => simp [here]
  next other =>
    refine iff_of_false (by simp) ?_
    rintro ⟨p, here⟩
    exact other p c here

theorem lt_of_callAt (some_ : (callAt h i).isSome) : i < h.length := by
  obtain ⟨c, here⟩ := Option.isSome_iff_exists.mp some_
  obtain ⟨p, here⟩ := callAt_eq_some.mp here
  exact (List.getElem?_eq_some_iff.mp here).1

theorem served_old (apply : Call → σ → Reply × σ) (init : σ) {order : List Nat}
    (inside : ∀ i ∈ order, i < h.length) :
    served (h ++ [e]) apply init order = served h apply init order := by
  rw [served, served, List.filterMap_congr fun i member => callAt_old (inside i member)]

/-- The call of a process at `i` is its last event. -/
def Open (h : History Pid Call Reply) (p : Pid) (i : Nat) (c : Call) : Prop :=
  h[i]? = some (.call p c) ∧ ∀ k x, i < k → h[k]? = some x → x.pid ≠ p

theorem Open.other {p : Pid} {c : Call} (open_ : Open h p i c) (other : e.pid ≠ p) :
    Open (h ++ [e]) p i c := by
  refine ⟨(getElem?_snoc _).mpr (.inl open_.1), fun k x behind here => ?_⟩
  rcases (getElem?_snoc x).mp here with old | ⟨-, rfl⟩
  · exact open_.2 k x behind old
  · exact other

theorem Open.last (p : Pid) (c : Call) : Open (h ++ [.call p c]) p h.length c := by
  refine ⟨(getElem?_snoc _).mpr (.inr ⟨rfl, rfl⟩), fun k x behind here => ?_⟩
  rcases (getElem?_snoc x).mp here with old | ⟨same, -⟩
  · have := (List.getElem?_eq_some_iff.mp old).1
    omega
  · omega

theorem answered_snoc {r : Reply} (answered : Answered (h ++ [e]) i j r) :
    Answered h i j r ∨ j = h.length ∧ ∃ p c, e = .reply p r ∧ Open h p i c := by
  obtain ⟨p, c, call, before, reply, between⟩ := answered
  have within : j < (h ++ [e]).length := (List.getElem?_eq_some_iff.mp reply).1
  rw [List.length_append, List.length_singleton] at within
  rw [getElem?_old (by omega)] at call
  rcases (getElem?_snoc _).mp reply with old | ⟨last, rfl⟩
  · have inside := (List.getElem?_eq_some_iff.mp old).1
    refine .inl ⟨p, c, call, before, old, fun k x behind front here => ?_⟩
    exact between k x behind front ((getElem?_snoc _).mpr (.inl here))
  · refine .inr ⟨last, p, c, rfl, call, fun k x behind here => ?_⟩
    have inside := (List.getElem?_eq_some_iff.mp here).1
    exact between k x behind (by omega) ((getElem?_snoc _).mpr (.inl here))

/-- A process has one last event. -/
theorem Open.unique {p : Pid} {i' : Nat} {c c' : Call} (first : Open h p i c)
    (second : Open h p i' c') :
    i = i' := by
  rcases Nat.lt_trichotomy i i' with less | same | less
  · exact absurd rfl (first.2 i' _ less second.1)
  · exact same
  · exact absurd rfl (second.2 i _ less first.1)

/-- An order is one for the history with another event, if this fits to it. -/
theorem Linearization.snoc {apply : Call → σ → Reply × σ} {init : σ} {order : List Nat}
    (linear : Linearization h apply init order)
    (fits : ∀ p r, e = .reply p r → ∀ i c, Open h p i c →
      i ∈ order ∧ ∀ pre post, order = pre ++ i :: post →
      (apply c (served h apply init pre)).1 = r) :
    Linearization (h ++ [e]) apply init order := by
  have inside (k : Nat) (member : k ∈ order) : k < h.length := lt_of_callAt (linear.calls k member)
  refine ⟨linear.once, fun k member => ?_, fun i j r answered => ?_,
    fun i k p c d first second less member => ?_,
    fun i j r answered k member before => ?_, fun i j r answered c call pre post parts => ?_⟩
  · rw [callAt_old (inside k member)]
    exact linear.calls k member
  · -- the new event can only answer the call that is open
    rcases answered_snoc answered with old | ⟨-, p, c, reply, open_⟩
    · exact linear.complete i j r old
    · exact (fits p r reply i c open_).1
  · have := inside k member
    rw [getElem?_old (by omega)] at first second
    exact linear.processes i k p c d first second less member
  · rcases answered_snoc answered with old | ⟨last, -⟩
    · exact linear.realTime i j r old k member before
    · have := inside k member
      omega
  · -- what was served before a call of the order does not depend on the new event
    have front (k : Nat) (member : k ∈ pre) : k < h.length :=
      inside k (by rw [parts]; simp [member])
    rw [served_old apply init front]
    rw [callAt_old (inside i (by rw [parts]; simp))] at call
    rcases answered_snoc answered with old | ⟨-, p, c', reply, open_⟩
    · exact linear.replies i j r old c call pre post parts
    · rw [callAt_eq_some.mpr ⟨p, open_.1⟩] at call
      obtain rfl := Option.mem_some_iff.mp call
      exact (fits p r reply i c' open_).2 pre post parts

/-- What is before one of the elements of an order stays so when another one is appended. -/
theorem parts_snoc {order pre post : List Nat} {k : Nat} (parts : order ++ [i] = pre ++ k :: post)
    (member : k ∈ order) (once : (order ++ [i]).Nodup) : ∃ post', order = pre ++ k :: post' := by
  rcases List.eq_nil_or_concat' post with rfl | ⟨post', x, rfl⟩
  · obtain ⟨-, last⟩ := List.append_inj' parts rfl
    obtain rfl := List.singleton_inj.mp last
    rw [List.nodup_append] at once
    exact absurd rfl (once.2.2 i member i (List.mem_singleton_self i))
  · refine ⟨post', ?_⟩
    rw [← List.cons_append, ← List.append_assoc] at parts
    exact (List.append_inj' parts rfl).1

end Append

/-! ### An object with points

Every call takes effect at one point between its beginning and its reply. -/

inductive Status (Call Reply : Type) where
  | idle
  | called (i : Nat) (c : Call)
  | done (i : Nat) (r : Reply)

structure Spec (Pid Call Reply σ : Type) where
  history : History Pid Call Reply
  order : List Nat
  state : σ
  status : Pid → Status Call Reply

namespace Spec

def start (init : σ) : Spec Pid Call Reply σ := ⟨[], [], init, fun _ => .idle⟩

variable [DecidableEq Pid] (apply : Call → σ → Reply × σ)

inductive Step : Spec Pid Call Reply σ → Spec Pid Call Reply σ → Prop
  | call {s : Spec Pid Call Reply σ} (p : Pid) (c : Call) (idle : s.status p = .idle) : Step s
      { s with
        history := s.history ++ [.call p c]
        status := Function.update s.status p (.called s.history.length c) }
  | point {s : Spec Pid Call Reply σ} (p : Pid) (i : Nat) (c : Call)
      (called : s.status p = .called i c) : Step s
      { s with
        order := s.order ++ [i]
        state := (apply c s.state).2
        status := Function.update s.status p (.done i (apply c s.state).1) }
  | reply {s : Spec Pid Call Reply σ} (p : Pid) (i : Nat) (r : Reply)
      (done : s.status p = .done i r) : Step s
      { s with
        history := s.history ++ [.reply p r]
        status := Function.update s.status p .idle }

variable (init : σ)

/-- What a status says of the history. -/
def StatusOk (h : History Pid Call Reply) (order : List Nat) (p : Pid) : Status Call Reply → Prop
  | .idle => ∀ k d, h[k]? = some (.call p d) → k ∈ order
  | .called i c => Open h p i c ∧ i ∉ order ∧ ∀ k d, h[k]? = some (.call p d) → k ≠ i → k ∈ order
  | .done i r => (∀ k d, h[k]? = some (.call p d) → k ∈ order) ∧ ∃ c, Open h p i c ∧
      ∀ pre post, order = pre ++ i :: post → (apply c (served h apply init pre)).1 = r

structure Inv (s : Spec Pid Call Reply σ) : Prop where
  linear : Linearization s.history apply init s.order
  state : s.state = served s.history apply init s.order
  status : ∀ p, StatusOk apply init s.history s.order p (s.status p)

variable {apply init} {s s' : Spec Pid Call Reply σ}

omit [DecidableEq Pid] in
theorem Inv.start : Inv apply init (start init : Spec Pid Call Reply σ) := by
  have nothing (i j : Nat) (r : Reply) : ¬ Answered ([] : History Pid Call Reply) i j r := by
    rintro ⟨p, c, call, -⟩
    cases call
  refine ⟨⟨List.nodup_nil, nofun, fun i j r answered => absurd answered (nothing i j r), nofun,
    fun i j r answered => absurd answered (nothing i j r),
    fun i j r answered => absurd answered (nothing i j r)⟩,
    rfl, fun p k d call => ?_⟩
  cases call

omit [DecidableEq Pid] in
/-- Another process takes a step. -/
theorem StatusOk.snoc {h : History Pid Call Reply} {e : Event Pid Call Reply} {order : List Nat}
    {q : Pid} {status : Status Call Reply} (inside : ∀ i ∈ order, i < h.length)
    (other : e.pid ≠ q) (ok : StatusOk apply init h order q status) :
    StatusOk apply init (h ++ [e]) order q status := by
  have old (k : Nat) (d : Call) (call : (h ++ [e])[k]? = some (.call q d)) :
      h[k]? = some (.call q d) := by
    rcases (getElem?_snoc _).mp call with old | ⟨-, rfl⟩
    · exact old
    · exact absurd rfl other
  cases status with
  | idle => exact fun k d call => ok k d (old k d call)
  | called i c => exact ⟨ok.1.other other, ok.2.1, fun k d call => ok.2.2 k d (old k d call)⟩
  | done i r =>
    obtain ⟨all, c, open_, result⟩ := ok
    refine ⟨fun k d call => all k d (old k d call), c, open_.other other, fun pre post parts => ?_⟩
    rw [served_old apply init fun k member => inside k (by rw [parts]; simp [member])]
    exact result pre post parts

omit [DecidableEq Pid] in
theorem Inv.inside (inv : Inv apply init s) : ∀ i ∈ s.order, i < s.history.length :=
  fun i member => lt_of_callAt (inv.linear.calls i member)

theorem Inv.call (inv : Inv apply init s) (p : Pid) (c : Call) (idle : s.status p = .idle) :
    Inv apply init
      { s with
        history := s.history ++ [.call p c]
        status := Function.update s.status p (.called s.history.length c) } := by
  refine ⟨inv.linear.snoc nofun, ?_, fun q => ?_⟩
  · rw [served_old apply init inv.inside]
    exact inv.state
  · have ok := inv.status q
    by_cases same : q = p
    · subst same
      rw [idle] at ok
      dsimp only
      rw [Function.update_self]
      refine ⟨Open.last q c, fun member => Nat.lt_irrefl _ (inv.inside _ member),
        fun k d call other => ?_⟩
      rcases (getElem?_snoc _).mp call with old | ⟨last, -⟩
      · exact ok k d old
      · exact absurd last other
    · dsimp only
      rw [Function.update_of_ne same]
      exact ok.snoc inv.inside (Ne.symm same)

theorem Inv.reply (inv : Inv apply init s) (p : Pid) (i : Nat) (r : Reply)
    (done : s.status p = .done i r) :
    Inv apply init
      { s with
        history := s.history ++ [.reply p r]
        status := Function.update s.status p .idle } := by
  have own := inv.status p
  rw [done] at own
  obtain ⟨all, c, open_, result⟩ := own
  refine ⟨inv.linear.snoc fun p' r' same i' c' open' => ?_, ?_, fun q => ?_⟩
  · cases same
    -- a process has one open call
    obtain rfl := open'.unique open_
    have call := open'.1
    rw [open_.1] at call
    cases call
    exact ⟨all i' c open_.1, result⟩
  · rw [served_old apply init inv.inside]
    exact inv.state
  · have ok := inv.status q
    by_cases same : q = p
    · subst same
      dsimp only
      rw [Function.update_self]
      intro k d call
      rcases (getElem?_snoc _).mp call with old | ⟨-, other⟩
      · exact all k d old
      · cases other
    · dsimp only
      rw [Function.update_of_ne same]
      exact ok.snoc inv.inside (Ne.symm same)

omit [DecidableEq Pid] in
/-- Another call takes effect. -/
theorem StatusOk.point {h : History Pid Call Reply} {order : List Nat} {p q : Pid} {i : Nat}
    {c : Call} {status : Status Call Reply} (other : p ≠ q) (open_ : Open h p i c)
    (once : (order ++ [i]).Nodup) (ok : StatusOk apply init h order q status) :
    StatusOk apply init h (order ++ [i]) q status := by
  cases status with
  | idle => exact fun k d call => List.mem_append_left _ (ok k d call)
  | called k d =>
    refine ⟨ok.1, fun member => ?_,
      fun k' d' call apart => List.mem_append_left _ (ok.2.2 k' d' call apart)⟩
    rcases List.mem_append.mp member with old | new
    · exact ok.2.1 old
    · have call := ok.1.1
      rw [List.mem_singleton.mp new, open_.1] at call
      cases call
      exact other rfl
  | done k r =>
    obtain ⟨all, d, openK, result⟩ := ok
    refine ⟨fun k' d' call => List.mem_append_left _ (all k' d' call), d, openK,
      fun pre post parts => ?_⟩
    obtain ⟨post', parts'⟩ := parts_snoc parts (all k d openK.1) once
    exact result pre post' parts'

theorem Inv.point (inv : Inv apply init s) (p : Pid) (i : Nat) (c : Call)
    (called : s.status p = .called i c) :
    Inv apply init
      { s with
        order := s.order ++ [i]
        state := (apply c s.state).2
        status := Function.update s.status p (.done i (apply c s.state).1) } := by
  have own := inv.status p
  rw [called] at own
  obtain ⟨open_, new, others⟩ := own
  -- the call was not in the order before
  have once : (s.order ++ [i]).Nodup := by
    rw [List.nodup_append]
    refine ⟨inv.linear.once, List.nodup_singleton i, fun k member k' last => ?_⟩
    rw [List.mem_singleton.mp last]
    exact fun same => new (same ▸ member)
  have call : callAt s.history i = some c := callAt_eq_some.mpr ⟨p, open_.1⟩
  have longer : s.order.Sublist (s.order ++ [i]) := List.sublist_append_left _ _
  have before (k : Nat) (member : k ∈ s.order) : [k, i].Sublist (s.order ++ [i]) :=
    (List.singleton_sublist.mpr member).append (List.Sublist.refl [i])
  refine ⟨⟨once, fun k member => ?_, fun k j r answered => ?_,
    fun k k' p' d d' first second less member => ?_,
    fun k j r answered k' member late => ?_, fun k j r answered d call' pre post parts => ?_⟩, ?_,
    fun q => ?_⟩
  · rcases List.mem_append.mp member with old | new
    · exact inv.linear.calls k old
    · rw [List.mem_singleton.mp new, call]
      rfl
  · exact List.mem_append_left _ (inv.linear.complete k j r answered)
  · rcases List.mem_append.mp member with old | new
    · exact (inv.linear.processes k k' p' d d' first second less old).trans longer
    · obtain rfl := List.mem_singleton.mp new
      rw [open_.1] at second
      cases second
      exact before k (others k d first (Nat.ne_of_lt less))
  · rcases List.mem_append.mp member with old | new
    · exact (inv.linear.realTime k j r answered k' old late).trans longer
    · rw [List.mem_singleton.mp new]
      -- what was answered before the call began is in the order already
      exact before k (inv.linear.complete k j r answered)
  · -- the calls that are answered were in the order, with the same calls in front of them
    obtain ⟨post', parts'⟩ := parts_snoc parts (inv.linear.complete k j r answered) once
    exact inv.linear.replies k j r answered d call' pre post' parts'
  · change (apply c s.state).2 = _
    rw [inv.state, served, served, List.filterMap_append, List.foldl_append]
    simp [call]
  · by_cases same : q = p
    · subst same
      dsimp only
      rw [Function.update_self]
      refine ⟨fun k d here => ?_, c, open_, fun pre post parts => ?_⟩
      · by_cases own : k = i
        · simp [own]
        · exact List.mem_append_left _ (others k d here own)
      · rcases List.eq_nil_or_concat' post with rfl | ⟨post', x, rfl⟩
        · rw [(List.append_inj' parts rfl).1.symm, ← inv.state]
        · rw [← List.cons_append, ← List.append_assoc] at parts
          have whole := (List.append_inj' parts rfl).1
          -- it stands at the end of the order, and nowhere else
          exact absurd (by rw [whole]; simp) new
    · dsimp only
      rw [Function.update_of_ne same]
      exact (inv.status q).point (Ne.symm same) open_ once

theorem Inv.step (inv : Inv apply init s) (step : Step apply s s') : Inv apply init s' := by
  cases step with
  | call p c idle => exact inv.call p c idle
  | point p i c called => exact inv.point p i c called
  | reply p i r done => exact inv.reply p i r done

/-- The histories of the object are linearizable. -/
theorem linearizable (reaches : Relation.ReflTransGen (Step apply) (.start init) s) :
    Linearizable s.history apply init := by
  suffices inv : Inv apply init s from ⟨s.order, inv.linear⟩
  induction reaches with
  | refl => exact Inv.start
  | tail _ step ih => exact ih.step step

end Spec

end Linearizability
