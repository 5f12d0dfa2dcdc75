import MyStudy.Apue.Mutex2Kept
import MyStudy.Lib.Transition

/-!
# An object is there while somebody refers to it

From the counts and the locks it follows that nobody touches an object that is gone, and that who
releases the last reference takes the object out of the table and frees it.
-/
namespace Apue.Mutex2

open LinkedChain Transition

/-! ### Each access -/

/-- What there is to say of a fault, and what becomes of the state. -/
def Result.Gives {σ : Type} (P : σ → Prop) (fault : Prop) : Result σ → Prop
  | .blocked => True
  | .fault => fault
  | .ok s => P s

/-- Not a fault, and what becomes of the state. -/
def Result.All {σ : Type} (P : σ → Prop) (r : Result σ) : Prop := r.Gives P False

theorem Result.Gives.mono {σ : Type} {P Q : σ → Prop} {f g : Prop} {r : Result σ}
    (gives : r.Gives P f) (weaker : ∀ s, P s → Q s) (fault : f → g) : r.Gives Q g := by
  cases r with
  | blocked => trivial
  | fault => exact fault gives
  | ok s => exact weaker s gives

section Accesses

variable {Tid : Type}

def State.view (s : State Tid) : View where
  ids a := (s.heap a).map Foo.id
  nexts a := (s.heap a).map Foo.next
  counts a := (s.heap a).elim 0 Foo.count
  fh := s.fh

variable {s : State Tid} {t : Tid} {fp : Addr} {o : Foo Tid}

/-- What is read of an object that is there. -/
theorem view_there (there : s.heap fp = some o) :
    s.view.ids fp = some o.id ∧ s.view.nexts fp = some o.next ∧ s.view.counts fp = o.count ∧
      s.holder fp = o.lock := by
  simp [State.view, State.holder, there]

theorem there_of_ids (live : (s.view.ids fp).isSome) : ∃ o, s.heap fp = some o :=
  Option.isSome_iff_exists.mp (by simpa [State.view] using live)

theorem heap_setFoo (s : State Tid) (fp : Addr) (o : Foo Tid) : (s.setFoo fp o).heap fp = some o :=
  Function.update_self _ _ _

theorem view_setFoo (s : State Tid) (fp : Addr) (o : Foo Tid) :
    s.view.SameBut fp (s.setFoo fp o).view := by
  have rest (a : Addr) (other : a ≠ fp) : (s.setFoo fp o).heap a = s.heap a :=
    Function.update_of_ne other _ _
  refine ⟨fun a other => ?_, fun a other => ?_, fun a other => ?_, rfl⟩ <;>
    simp only [State.view, rest a other]

theorem holder_setFoo (s : State Tid) (fp : Addr) (o : Foo Tid) :
    (s.setFoo fp o).holder = Function.update s.holder fp o.lock := by
  funext a
  by_cases same : a = fp
  · subst same
    rw [Function.update_self]
    exact (view_there (heap_setFoo s a o)).2.2.2
  · rw [Function.update_of_ne same]
    exact congrArg (fun o : Option (Foo Tid) => o.bind Foo.lock) (Function.update_of_ne same _ _)

theorem holder_setFoo_same (there : s.heap fp = some o) {o' : Foo Tid} (lock : o'.lock = o.lock) :
    (s.setFoo fp o').holder = s.holder := by
  rw [holder_setFoo, lock, ← (view_there there).2.2.2, Function.update_eq_self]

/-- A count is an `int`. -/
theorem counts_lt (s : State Tid) (fp : Addr) : s.view.counts fp < 2 ^ 31 := by
  simp only [State.view]
  cases s.heap fp with
  | none => exact show (0 : Int) < 2 ^ 31 by decide
  | some o => exact o.int.2

/-- Only the lock of an object changes. -/
theorem view_relock (there : s.heap fp = some o) (lock : Option Tid) :
    (s.setFoo fp { o with lock := lock }).view = s.view := by
  have same := view_setFoo s fp { o with lock := lock }
  have was := view_there there
  have becomes := view_there (heap_setFoo s fp { o with lock := lock })
  have ids := same.ids_eq (becomes.1.trans was.1.symm)
  have nexts := same.nexts_eq (becomes.2.1.trans was.2.1.symm)
  have counts := same.counts_eq (becomes.2.2.1.trans was.2.2.1.symm)
  exact (View.mk.injEq ..).mpr ⟨ids, nexts, counts, same.fh⟩

variable [DecidableEq Tid] [Fintype Tid]

/-- The locks and the objects are what the threads have. -/
structure Sound (s : State Tid) (chain : Fin nhash → List Addr) : Prop where
  hashOwner : HashOwner s.hashlock s.threads
  fooOwner : FooOwner s.holder s.threads
  apart : Apart s.threads
  counted : Counted s.view chain s.threads

def Kept (s : State Tid) : Prop := ∃ chain, Sound s chain

/-- A thread counts one more reference to an object that has as many as an `int` counts. -/
def Overflows (s : State Tid) (label : Label Tid) : Prop :=
  ∃ t fp, label = .go t ∧ (s.threads t).point.takes = some fp ∧
    2 ^ 31 ≤ ∑ u, ((s.threads u).owned fp : Int) + 1

variable {chain : Fin nhash → List Addr} {refs refs' : List Addr} {p q : Point}

omit [Fintype Tid] in
theorem setPoint_eq (before : s.threads t = ⟨refs, p⟩) (q : Point) :
    s.setPoint t q = s.setThread t ⟨refs, q⟩ := by
  rw [State.setPoint, before]

omit [DecidableEq Tid] in
theorem Sound.there (sound : Sound s chain) (before : s.threads t = ⟨refs, p⟩)
    (owns : p.owns = some fp) :
    ∃ o, s.heap fp = some o :=
  there_of_ids (sound.counted.owned_live (t := t) (Thread.owned_pos (by rw [before]; exact owns)))

omit [DecidableEq Tid] [Fintype Tid] in
theorem there_of_holder (owner : FooOwner s.holder s.threads) (before : s.threads t = ⟨refs, p⟩)
    (locked : p.locked = some fp) : ∃ o, s.heap fp = some o ∧ o.lock = some t :=
  Option.bind_eq_some_iff.mp ((owner fp t).mpr (by rw [before]; exact locked))

/-- A thread only goes on. -/
theorem Sound.goesTo (sound : Sound s chain) (before : s.threads t = ⟨refs, p⟩)
    (inHash : q.inHash = p.inHash) (locked : q.locked = p.locked)
    (owned : ∀ a, Thread.owned ⟨refs', q⟩ a = Thread.owned ⟨refs, p⟩ a)
    (hidden : q.hidden = p.hidden)
    (sole : ∀ a, q.sole = some a → p.sole = some a ∨ p.locked = some a ∧ s.view.counts a = 1)
    (here : At s.view chain ⟨refs', q⟩) : Sound (s.setThread t ⟨refs', q⟩) chain := by
  have was : (s.threads t).point = p := congrArg Thread.point before
  refine ⟨sound.hashOwner.moves ?_, sound.fooOwner.moves ?_,
    sound.apart.update (fun a u other its => ?_) fun a u other its => ?_,
    sound.counted.moves (fun a => ?_) ?_ (fun a its => ?_) here⟩
  · rw [was]
    exact inHash
  · rw [was]
    exact locked
  · rcases sole a its with mine | ⟨mine, -⟩
    · exact fun second => other (sound.apart t u a (was ▸ mine) second).symm
    · exact fun second => other (sound.fooOwner.alone second (was ▸ mine))
  · exact sound.apart.not_sole (by rw [was, ← locked]; exact its) other
  · rw [before]
    exact owned a
  · rw [was]
    exact hidden
  · rcases sole a its with mine | ⟨-, one⟩
    · exact sound.counted.sole t a (was ▸ mine)
    · exact one

theorem Sound.lockHash (sound : Sound s chain) (before : s.threads t = ⟨refs, p⟩)
    (inHash : q.inHash = true) (locked : q.locked = p.locked) (owns : q.owns = p.owns)
    (hidden : q.hidden = p.hidden) (sole : q.sole = p.sole) (here : At s.view chain ⟨refs, q⟩) :
    (s.lockHash t q).All (Sound · chain) := by
  have was : (s.threads t).point = p := congrArg Thread.point before
  rw [State.lockHash]
  cases free : s.hashlock with
  | some u => trivial
  | none =>
    have owner := sound.hashOwner
    rw [free] at owner
    simp only [setPoint_eq (s := { s with hashlock := some t }) before]
    refine ⟨owner.takes inHash, sound.fooOwner.moves ?_,
      sound.apart.moves (fun a its => ?_) fun a its => ?_,
      sound.counted.moves (fun a => ?_) ?_ (fun a its => ?_) here⟩
    · rw [was]
      exact locked
    · rw [was, ← sole]
      exact its
    · rw [was, ← locked]
      exact its
    · rw [before]
      exact owned_eq (x := ⟨refs, p⟩) (y := ⟨refs, q⟩) rfl owns a
    · rw [was]
      exact hidden
    · exact sound.counted.sole t a (by rw [was, ← sole]; exact its)

theorem Sound.unlockHash (sound : Sound s chain) (before : s.threads t = ⟨refs, p⟩)
    (inHash : p.inHash = true) (left_ : q.inHash = false) (locked : q.locked = p.locked)
    (owned : ∀ a, Thread.owned ⟨refs', q⟩ a = Thread.owned ⟨refs, p⟩ a)
    (hidden : q.hidden = p.hidden) (sole : q.sole = p.sole) (here : At s.view chain ⟨refs', q⟩) :
    (s.unlockHash t ⟨refs', q⟩).All (Sound · chain) := by
  have was : (s.threads t).point = p := congrArg Thread.point before
  have mine : s.hashlock = some t := (sound.hashOwner t).mpr (by rw [was]; exact inHash)
  rw [State.unlockHash, if_pos mine]
  have owner := sound.hashOwner
  rw [mine] at owner
  refine ⟨owner.leaves left_, sound.fooOwner.moves ?_,
    sound.apart.moves (fun a its => ?_) fun a its => ?_,
    sound.counted.moves (fun a => ?_) ?_ (fun a its => ?_) here⟩
  · rw [was]
    exact locked
  · rw [was, ← sole]
    exact its
  · rw [was, ← locked]
    exact its
  · rw [before]
    exact owned a
  · rw [was]
    exact hidden
  · exact sound.counted.sole t a (by rw [was, ← sole]; exact its)

theorem Sound.lockFoo (sound : Sound s chain) (before : s.threads t = ⟨refs, p⟩)
    (there : s.heap fp = some o) (unhidden : ∀ u, u ≠ t → (s.threads u).point.hidden ≠ some fp)
    (inHash : q.inHash = p.inHash) (unlocked : p.locked = none) (locked : q.locked = some fp)
    (owns : q.owns = p.owns) (hidden : q.hidden = p.hidden) (sole : q.sole = none)
    (here : At s.view chain ⟨refs, q⟩) : (s.lockFoo t fp q).All (Sound · chain) := by
  have was : (s.threads t).point = p := congrArg Thread.point before
  rw [State.lockFoo, State.atFoo, there]
  simp only
  cases free : o.lock with
  | some u => trivial
  | none =>
    have none_ : s.holder fp = none := (view_there there).2.2.2.trans free
    simp only [setPoint_eq (s := s.setFoo fp { o with lock := some t }) before]
    refine ⟨sound.hashOwner.moves ?_, ?_,
      sound.apart.update (by simp [sole]) fun a u other its first => ?_, ?_⟩
    · rw [was]
      exact inHash
    · rw [show (State.setThread (s.setFoo fp { o with lock := some t }) t ⟨refs, q⟩).holder =
        Function.update s.holder fp (some t) from holder_setFoo s fp _]
      exact sound.fooOwner.takes (by rw [was]; exact unlocked) none_ locked
    · obtain rfl := Option.some.inj (locked.symm.trans its)
      -- who has an object alone has its lock, where others can find it
      rcases Point.hidden_or_locked first with away | also
      · exact unhidden u other away
      · have its := (sound.fooOwner fp u).mpr also
        rw [none_] at its
        cases its
    · rw [show (State.setThread (s.setFoo fp { o with lock := some t }) t ⟨refs, q⟩).view =
        s.view from view_relock there _]
      refine sound.counted.moves (fun a => ?_) (by rw [was]; exact hidden) (by simp [sole]) here
      rw [before]
      exact owned_eq (x := ⟨refs, p⟩) (y := ⟨refs, q⟩) rfl owns a

theorem Sound.unlockFoo (sound : Sound s chain) (before : s.threads t = ⟨refs, p⟩)
    (locked : p.locked = some fp) (inHash : q.inHash = p.inHash) (unlocked : q.locked = none)
    (owned : ∀ a, Thread.owned ⟨refs', q⟩ a = Thread.owned ⟨refs, p⟩ a)
    (hidden : q.hidden = p.hidden) (sole : ∀ a, q.sole = some a → p.sole = some a)
    (here : At s.view chain ⟨refs', q⟩) :
    (s.unlockFoo t fp ⟨refs', q⟩).All (Sound · chain) := by
  have was : (s.threads t).point = p := congrArg Thread.point before
  obtain ⟨o, there, mine⟩ := there_of_holder sound.fooOwner before locked
  rw [State.unlockFoo, State.atFoo, there]
  simp only [if_pos mine]
  refine ⟨sound.hashOwner.moves ?_, ?_,
    sound.apart.moves (fun a its => ?_) (by simp [unlocked]), ?_⟩
  · rw [was]
    exact inHash
  · rw [show (State.setThread (s.setFoo fp { o with lock := none }) t ⟨refs', q⟩).holder =
      Function.update s.holder fp none from holder_setFoo s fp _]
    exact sound.fooOwner.leaves (by rw [was]; exact locked) unlocked
  · rw [was]
    exact sole a its
  · rw [show (State.setThread (s.setFoo fp { o with lock := none }) t ⟨refs', q⟩).view = s.view from
      view_relock there _]
    refine sound.counted.moves (fun a => ?_) (by rw [was]; exact hidden) (fun a its => ?_) here
    · rw [before]
      exact owned a
    · exact sound.counted.sole t a (by rw [was]; exact sole a its)

theorem Sound.addCount (sound : Sound s chain) (before : s.threads t = ⟨refs, p⟩)
    (locked : p.locked = some fp) {n : Int}
    (positive : 0 < s.view.counts fp → 0 < s.view.counts fp + n)
    (small : s.view.counts fp + n < 2 ^ 31) (inHash : q.inHash = p.inHash)
    (lockedStill : q.locked = some fp)
    (mine : (Thread.owned ⟨refs, q⟩ fp : Int) = Thread.owned ⟨refs, p⟩ fp + n)
    (owned : ∀ a, a ≠ fp → Thread.owned ⟨refs, q⟩ a = Thread.owned ⟨refs, p⟩ a)
    (hidden : q.hidden = p.hidden) (sole : q.sole = none)
    (here : ∀ v : View, v.ids = s.view.ids → At v chain ⟨refs, q⟩) :
    (s.addCount t fp n q).All (Sound · chain) := by
  have was : (s.threads t).point = p := congrArg Thread.point before
  obtain ⟨o, there, -⟩ := there_of_holder sound.fooOwner before locked
  obtain ⟨ids, nexts, counts, -⟩ := view_there there
  have live : 0 < s.view.counts fp := (sound.counted.live fp).mpr (by rw [ids]; rfl)
  have more := positive live
  rw [counts] at more small
  have int : -2 ^ 31 ≤ o.count + n ∧ o.count + n < 2 ^ 31 := ⟨by omega, small⟩
  have same := view_setFoo s fp { o with count := o.count + n, int := int }
  obtain ⟨ids', nexts', counts', -⟩ :=
    view_there (heap_setFoo s fp { o with count := o.count + n, int := int })
  rw [State.addCount, State.atFoo, there]
  simp only [dif_pos int,
    setPoint_eq (s := s.setFoo fp { o with count := o.count + n, int := int }) before]
  refine ⟨sound.hashOwner.moves ?_, ?_, sound.apart.moves (by simp [sole]) fun a its => ?_, ?_⟩
  · rw [was]
    exact inHash
  · rw [show (State.setThread (s.setFoo fp { o with count := o.count + n, int := int }) t
      ⟨refs, q⟩).holder = s.holder from holder_setFoo_same there rfl]
    exact sound.fooOwner.moves (by rw [was, locked]; exact lockedStill)
  · rw [was, locked, ← lockedStill]
    exact its
  · refine sound.counted.adds sound.fooOwner sound.apart (by rw [was]; exact locked) same
      (ids'.trans ids.symm)
      (nexts'.trans nexts.symm) (counts'.trans (by rw [counts])) live (positive live) ?_
      (fun a other => ?_)
      (by rw [was]; exact hidden) sole ?_
    · rw [before]
      exact mine
    · rw [before]
      exact owned a other
    · exact here _ (same.ids_eq (ids'.trans ids.symm))

/-- Nobody hides an object to which another thread has a reference. -/
theorem Sound.unhidden (sound : Sound s chain) (owned : 0 < (s.threads t).owned fp) (u : Tid)
    (other : u ≠ t) :
    (s.threads u).point.hidden ≠ some fp := by
  intro hidden
  have none_ := sound.counted.sole_alone (Point.sole_of_hidden hidden) other.symm
  omega

/-- A thread has one more reference, where an `int` still counts it. -/
theorem Sound.takes (sound : Sound s chain) (before : s.threads t = ⟨refs, p⟩)
    (takes : p.takes = some fp) (locked : p.locked = some fp) (inHash : q.inHash = p.inHash)
    (lockedStill : q.locked = some fp)
    (mine : (Thread.owned ⟨refs, q⟩ fp : Int) = Thread.owned ⟨refs, p⟩ fp + 1)
    (owned : ∀ a, a ≠ fp → Thread.owned ⟨refs, q⟩ a = Thread.owned ⟨refs, p⟩ a)
    (hidden : q.hidden = p.hidden) (sole : q.sole = none)
    (here : ∀ v : View, v.ids = s.view.ids → At v chain ⟨refs, q⟩) :
    (s.addCount t fp 1 q).Gives Kept (Overflows s (.go t)) := by
  by_cases small : s.view.counts fp + 1 < 2 ^ 31
  · have all :=
      sound.addCount before locked (by omega) small inHash lockedStill mine owned hidden sole here
    exact all.mono (fun _ sound => ⟨chain, sound⟩) False.elim
  · obtain ⟨o, there, -⟩ := there_of_holder sound.fooOwner before locked
    have counts := (view_there there).2.2.1
    rw [State.addCount, State.atFoo, there]
    simp only [dif_neg (show ¬ (-2 ^ 31 ≤ o.count + 1 ∧ o.count + 1 < 2 ^ 31) by omega)]
    refine ⟨t, fp, rfl, by rw [before]; exact takes, ?_⟩
    rw [← sound.counted.count fp]
    omega

/-- The next object of the search. -/
theorem Sound.findTest (sound : Sound s chain) {id : Int} {next : Option Addr}
    (before : s.threads t = ⟨refs, .findTest id next⟩) :
    (s.go t (.findTest id next)).All (Sound · chain) := by
  have here : At s.view chain ⟨refs, .findTest id next⟩ := before ▸ sound.counted.here t
  obtain ⟨before', after, all, first, not_⟩ := here
  cases after with
  | nil =>
    obtain rfl := first
    rw [List.head?_nil, State.go, State.goesTo, setPoint_eq before]
    refine sound.goesTo before rfl rfl (fun _ => rfl) rfl (not_sole rfl) fun a member => ?_
    rw [all, List.append_nil] at member
    exact not_ a member
  | cons fp after =>
    obtain rfl := first
    have member : fp ∈ chain (hash id) := by simp [all]
    obtain ⟨o, there⟩ := there_of_ids (sound.counted.chain_live member)
    obtain ⟨ids, nexts, -⟩ := view_there there
    have linked := sound.counted.linked (hash id)
    rw [all] at linked
    have leads := nexts.symm.trans linked.next_eq
    rw [List.head?_cons, State.go, State.atFoo, there]
    simp only [State.goesTo, setPoint_eq before]
    by_cases its : o.id = id
    · rw [if_pos its]
      exact sound.goesTo before rfl rfl (fun _ => rfl) rfl (not_sole rfl) ⟨member, by rw [ids, its]⟩
    · rw [if_neg its]
      refine sound.goesTo before rfl rfl (fun _ => rfl) rfl (not_sole rfl)
        ⟨before' ++ [fp], after, by simp [all], Option.some.inj leads, fun a its' => ?_⟩
      rcases List.mem_append.mp its' with old | new
      · exact not_ a old
      · obtain rfl := List.mem_singleton.mp new
        rw [ids]
        exact fun same => its (Option.some.inj same)

/-- An object that its last owner locks is in its list. -/
theorem Sound.listed (sound : Sound s chain) (sole : (s.threads t).point.sole = some fp)
    (unhidden : (s.threads t).point.hidden = none) (there : s.heap fp = some o) :
    fp ∈ chain (hash o.id) := by
  refine (sound.counted.member _ fp).mpr ⟨⟨o.id, (view_there there).1, rfl⟩, fun u hidden => ?_⟩
  by_cases same : u = t
  · rw [same, unhidden] at hidden
    cases hidden
  · exact sound.unhidden (Thread.owned_pos (Point.owns_of_sole sole)) u same hidden

theorem Sound.releHead (sound : Sound s chain) (before : s.threads t = ⟨refs, .releHead fp⟩) :
    (s.go t (.releHead fp)).All (Sound · chain) := by
  obtain ⟨o, there⟩ := sound.there before rfl
  have member := sound.listed (t := t) (by rw [before]; rfl) (by rw [before]; rfl) there
  have linked := (sound.counted.linked (hash o.id)).head
  have ids := (view_there there).1
  rw [State.go, State.atFoo, there]
  simp only [State.goesTo, setPoint_eq before]
  cases all : chain (hash o.id) with
  | nil => simp [all] at member
  | cons tfp post =>
    rw [all, List.head?_cons] at linked
    rw [show s.fh (hash o.id) = some tfp from linked]
    by_cases same : tfp = fp
    · simp only [if_pos same]
      exact sound.goesTo before rfl rfl (fun _ => rfl) rfl (fun _ => .inl)
        ⟨o.id, post, ids, same ▸ all⟩
    · simp only [if_neg same]
      rw [all, List.mem_cons] at member
      exact sound.goesTo before rfl rfl (fun _ => rfl) rfl (fun _ => .inl)
        ⟨o.id, [], post, ids, all, member.resolve_left (Ne.symm same)⟩

/-- The search for the object before comes to it. -/
theorem Sound.releWalk (sound : Sound s chain) {tfp : Addr}
    (before : s.threads t = ⟨refs, .releWalk fp tfp⟩) :
    (s.go t (.releWalk fp tfp)).All (Sound · chain) := by
  have here : At s.view chain ⟨refs, .releWalk fp tfp⟩ := before ▸ sound.counted.here t
  obtain ⟨id, pre, post, ids, all, member⟩ := here
  obtain ⟨o, there⟩ :=
    there_of_ids (sound.counted.chain_live (i := hash id) (show tfp ∈ _ by simp [all]))
  have linked := sound.counted.linked (hash id)
  rw [all] at linked
  have leads := (view_there there).2.1.symm.trans linked.next_eq
  rw [State.go, State.atFoo, there]
  simp only [State.goesTo, setPoint_eq before]
  cases post with
  | nil => cases member
  | cons next post =>
    rw [Option.some.inj leads, List.head?_cons]
    by_cases same : next = fp
    · subst same
      simp only [if_true]
      exact sound.goesTo before rfl rfl (fun _ => rfl) rfl (fun _ => .inl) ⟨id, pre, post, ids, all⟩
    · simp only [if_neg same]
      exact sound.goesTo before rfl rfl (fun _ => rfl) rfl (fun _ => .inl)
        ⟨id, pre ++ [tfp], post, ids,
          by simp [all], (List.mem_cons.mp member).resolve_left (Ne.symm same)⟩

/-! ### The table changes -/

theorem Sound.allocNext (sound : Sound s chain) {id : Int}
    (before : s.threads t = ⟨refs, .allocNext id fp⟩) :
    (s.go t (.allocNext id fp)).All (Sound · chain) := by
  have was : (s.threads t).point = .allocNext id fp := congrArg Thread.point before
  have here : At s.view chain ⟨refs, .allocNext id fp⟩ := before ▸ sound.counted.here t
  obtain ⟨o, there⟩ := sound.there before rfl
  have same := view_setFoo s fp { o with next := s.fh (hash id) }
  obtain ⟨ids, nexts, counts, -⟩ := view_there there
  obtain ⟨ids', nexts', counts', -⟩ :=
    view_there (heap_setFoo s fp { o with next := s.fh (hash id) })
  rw [State.go, State.atFoo, there]
  simp only [setPoint_eq (s := s.setFoo fp { o with next := s.fh (hash id) }) before]
  refine ⟨sound.hashOwner.moves (by rw [was]; rfl), ?_,
    sound.apart.moves (by rw [was]; exact fun _ its => its) nofun, ?_⟩
  · rw [show (State.setThread (s.setFoo fp { o with next := s.fh (hash id) }) t _).holder =
      s.holder from holder_setFoo_same there rfl]
    exact sound.fooOwner.moves (by rw [was]; rfl)
  · refine sound.counted.leads sound.hashOwner (by rw [was]; rfl) (by rw [was]; rfl) same
      (ids'.trans ids.symm)
      (counts'.trans counts.symm) (fun a => ?_) rfl rfl ⟨?_, nexts'⟩
    · rw [before]
      rfl
    · exact (ids'.trans ids.symm).trans here

theorem Sound.allocHead (sound : Sound s chain) {id : Int}
    (before : s.threads t = ⟨refs, .allocHead id fp⟩) :
    (s.go t (.allocHead id fp)).All
      (Sound · (Function.update chain (hash id) (fp :: chain (hash id)))) := by
  have was : (s.threads t).point = .allocHead id fp := congrArg Thread.point before
  have here : At s.view chain ⟨refs, .allocHead id fp⟩ := before ▸ sound.counted.here t
  rw [State.go, setPoint_eq (s := { s with fh := Function.update s.fh (hash id) (some fp) }) before]
  refine ⟨sound.hashOwner.moves (by rw [was]; rfl), sound.fooOwner.moves (by rw [was]; rfl),
    sound.apart.moves nofun nofun, ?_⟩
  refine sound.counted.pushes sound.hashOwner (by rw [was]; rfl) (by rw [was]; rfl) here.1 here.2
    rfl rfl rfl rfl
    (fun a => ?_) rfl rfl trivial
  rw [before]
  rfl

theorem Sound.releUnlinkHead (sound : Sound s chain)
    (before : s.threads t = ⟨refs, .releUnlinkHead fp⟩) :
    (s.go t (.releUnlinkHead fp)).All Kept := by
  have was : (s.threads t).point = .releUnlinkHead fp := congrArg Thread.point before
  have here : At s.view chain ⟨refs, .releUnlinkHead fp⟩ := before ▸ sound.counted.here t
  obtain ⟨id, post, its, all⟩ := here
  obtain ⟨o, there⟩ := sound.there before rfl
  obtain ⟨ids, nexts, -⟩ := view_there there
  obtain rfl : o.id = id := Option.some.inj (ids.symm.trans its)
  have linked := sound.counted.linked (hash o.id)
  rw [all] at linked
  rw [State.go, State.atFoo, there]
  simp only [setPoint_eq (s := { s with fh := Function.update s.fh (hash o.id) o.next }) before]
  refine ⟨Function.update chain (hash o.id) ([] ++ post), sound.hashOwner.moves (by rw [was]; rfl),
    sound.fooOwner.moves (by rw [was]; rfl), sound.apart.moves (by rw [was]; exact fun _ its => its)
    (by rw [was]; exact fun _ its => its), ?_⟩
  refine sound.counted.takesOut sound.hashOwner (by rw [was]; rfl) (by rw [was]; rfl)
    (by rw [was]; rfl)
    (show chain (hash o.id) = [] ++ fp :: post from all) rfl rfl (fun a => ?_) rfl rfl
    (fun j => ?_) trivial
  · rw [before]
    rfl
  · change Linked s.view.nexts (Function.update s.view.fh (hash o.id) o.next j) _
    by_cases same : j = hash o.id
    · subst same
      rw [Function.update_self, Function.update_self]
      exact linked.tail nexts
    · rw [Function.update_of_ne same, Function.update_of_ne same]
      exact sound.counted.linked j

theorem Sound.releUnlink (sound : Sound s chain) {tfp : Addr}
    (before : s.threads t = ⟨refs, .releUnlink fp tfp⟩) :
    (s.go t (.releUnlink fp tfp)).All Kept := by
  have was : (s.threads t).point = .releUnlink fp tfp := congrArg Thread.point before
  have here : At s.view chain ⟨refs, .releUnlink fp tfp⟩ := before ▸ sound.counted.here t
  obtain ⟨id, pre, post, its, all⟩ := here
  obtain ⟨o, there⟩ := sound.there before rfl
  obtain ⟨p', there'⟩ :=
    there_of_ids (sound.counted.chain_live (i := hash id) (show tfp ∈ _ by simp [all]))
  have same := view_setFoo s tfp { p' with next := o.next }
  obtain ⟨ids, nexts, counts, -⟩ := view_there there'
  obtain ⟨ids', nexts', counts', -⟩ := view_there (heap_setFoo s tfp { p' with next := o.next })
  have linked := sound.counted.linked (hash id)
  have once := sound.counted.once (hash id)
  rw [all] at linked once
  have leads : (s.setFoo tfp { p' with next := o.next }).view.nexts =
      Function.update s.view.nexts tfp (some o.next) := by
    funext a
    by_cases me : a = tfp
    · rw [me, Function.update_self]
      exact nexts'
    · rw [Function.update_of_ne me]
      exact same.nexts a me
  rw [State.go, State.atFoo, there]
  simp only [State.atFoo, there', setPoint_eq (s := s.setFoo tfp { p' with next := o.next }) before]
  refine ⟨Function.update chain (hash id) (pre ++ [tfp] ++ post),
    sound.hashOwner.moves (by rw [was]; rfl), ?_,
    sound.apart.moves (by rw [was]; exact fun _ its => its)
    (by rw [was]; exact fun _ its => its), ?_⟩
  · rw [show (State.setThread (s.setFoo tfp { p' with next := o.next }) t _).holder = s.holder from
      holder_setFoo_same there' rfl]
    exact sound.fooOwner.moves (by rw [was]; rfl)
  · refine sound.counted.takesOut sound.hashOwner (by rw [was]; rfl) (by rw [was]; rfl)
      (by rw [was]; rfl)
      (show chain (hash id) = pre ++ [tfp] ++ fp :: post by simp [all])
      (same.ids_eq (ids'.trans ids.symm))
      (same.counts_eq (counts'.trans counts.symm))
      (fun a => ?_) rfl rfl (fun j => ?_) trivial
    · rw [before]
      rfl
    · refine leads.symm ▸ ?_
      by_cases its' : j = hash id
      · subst its'
        rw [Function.update_self, List.append_assoc]
        exact linked.remove once (view_there there).2.1
      · rw [Function.update_of_ne its']
        refine (sound.counted.linked j).congr fun a member => Function.update_of_ne ?_ _ _
        rintro rfl
        obtain ⟨⟨id₁, its₁, at₁⟩, -⟩ := (sound.counted.member j a).mp member
        obtain ⟨⟨id₂, its₂, at₂⟩, -⟩ := (sound.counted.member (hash id) a).mp (by simp [all])
        obtain rfl := Option.some.inj (its₁.symm.trans its₂)
        exact its' (at₁.symm.trans at₂)

/-! ### Memory -/

omit [DecidableEq Tid] [Fintype Tid] in
theorem not_locked (owner : FooOwner s.holder s.threads) (free : s.holder fp = none) (u : Tid) :
    (s.threads u).point.locked ≠ some fp := fun locked => by
  rw [← owner fp u, free] at locked
  cases locked

theorem Sound.malloc (sound : Sound s chain) {id : Int}
    (before : s.threads t = ⟨refs, .allocMalloc id⟩) (fp : Option Addr) :
    (s.malloc t id fp).All (Sound · chain) := by
  have was : (s.threads t).point = .allocMalloc id := congrArg Thread.point before
  cases fp with
  | none =>
    rw [State.malloc, State.goesTo, setPoint_eq before]
    exact sound.goesTo before rfl rfl (fun _ => rfl) rfl (not_sole rfl) trivial
  | some fp =>
    rw [State.malloc]
    by_cases fresh : s.heap fp = none
    · have unlocked :=
        not_locked sound.fooOwner (show s.holder fp = none by rw [State.holder, fresh]; rfl)
      have same := view_setFoo s fp ⟨1, by decide, none, id, none⟩
      obtain ⟨ids, -, counts, -⟩ := view_there (heap_setFoo s fp ⟨1, by decide, none, id, none⟩)
      rw [if_pos fresh, setPoint_eq (s := s.setFoo fp ⟨1, by decide, none, id, none⟩) before]
      refine ⟨sound.hashOwner.moves (by rw [was]; rfl), ?_,
        sound.apart.update (fun a u _ its => ?_) nofun, ?_⟩
      · rw [show
          (State.setThread (s.setFoo fp ⟨1, by decide, none, id, none⟩) t
            ⟨refs, .allocLockHash id fp⟩).holder = s.holder by
          refine (holder_setFoo s fp _).trans ?_
          rw [show (none : Option Tid) =
            s.holder fp by rw [State.holder, fresh]; rfl, Function.update_eq_self]]
        exact sound.fooOwner.moves (by rw [was]; rfl)
      · obtain rfl := Option.some.inj its
        exact unlocked u
      · have none_ : s.view.ids fp = none := congrArg (Option.map Foo.id) fresh
        refine sound.counted.mallocs none_ unlocked (by rw [was]; rfl) same
          (Option.isSome_of_eq_some ids) counts ?_
          (fun a other => ?_) rfl rfl ids
        · simp [before, Thread.owned, Point.owns]
        · simp [before, Thread.owned, Point.owns, other.symm]
    · rw [if_neg fresh]
      trivial

omit [DecidableEq Tid] in
/-- Nobody has the lock of an object that is to be destroyed. -/
theorem Sound.unlocked (sound : Sound s chain) (before : s.threads t = ⟨refs, p⟩)
    (sole : p.sole = some fp) (left_ : p.locked = none) (u : Tid) :
    (s.threads u).point.locked ≠ some fp := by
  intro locked
  obtain rfl := sound.apart t u fp (by rw [before]; exact sole) locked
  rw [before] at locked
  cases left_.symm.trans locked

theorem Sound.releDestroy (sound : Sound s chain) (before : s.threads t = ⟨refs, .releDestroy fp⟩) :
    (s.go t (.releDestroy fp)).All (Sound · chain) := by
  obtain ⟨o, there⟩ := sound.there before rfl
  have free : o.lock = none := by
    rw [← (view_there there).2.2.2, Option.eq_none_iff_forall_not_mem]
    intro u its
    exact sound.unlocked before rfl rfl u ((sound.fooOwner fp u).mp its)
  rw [State.go, State.atFoo, there]
  simp only [if_pos free, State.goesTo, setPoint_eq before]
  exact sound.goesTo before rfl rfl (fun _ => rfl) rfl (fun _ => .inl) trivial

theorem Sound.releFree (sound : Sound s chain) (before : s.threads t = ⟨refs, .releFree fp⟩) :
    (s.go t (.releFree fp)).All (Sound · chain) := by
  have was : (s.threads t).point = .releFree fp := congrArg Thread.point before
  have unlocked := sound.unlocked before rfl rfl
  have gone : Function.update s.heap fp none fp = none := Function.update_self _ _ _
  have rest (a : Addr) (other : a ≠ fp) : Function.update s.heap fp none a = s.heap a :=
    Function.update_of_ne other _ _
  have free : s.holder fp = none := by
    rw [Option.eq_none_iff_forall_not_mem]
    exact fun u its => unlocked u ((sound.fooOwner fp u).mp its)
  obtain ⟨o, there⟩ := sound.there before rfl
  rw [State.go, State.atFoo, there]
  simp only [setPoint_eq (s := { s with heap := Function.update s.heap fp none }) before]
  have holder : State.holder { s with heap := Function.update s.heap fp none } = s.holder := by
    funext a
    by_cases same : a = fp
    · rw [same, free]
      exact congrArg (fun o : Option (Foo Tid) => o.bind Foo.lock) gone
    · exact congrArg (fun o : Option (Foo Tid) => o.bind Foo.lock) (rest a same)
  refine ⟨sound.hashOwner.moves (by rw [was]; rfl), ?_, sound.apart.moves nofun nofun, ?_⟩
  · rw [show State.holder (State.setThread { s with heap := Function.update s.heap fp none } t _) =
      s.holder from holder]
    exact sound.fooOwner.moves (by rw [was]; rfl)
  · refine sound.counted.frees (show _ = some fp by rw [was]; rfl) unlocked
      ⟨fun a other => ?_, fun a other => ?_, fun a other => ?_, rfl⟩ ?_ ?_ ?_ (fun a other => ?_)
      rfl rfl trivial
    · exact congrArg (fun o : Option (Foo Tid) => o.map Foo.id) (rest a other)
    · exact congrArg (fun o : Option (Foo Tid) => o.map Foo.next) (rest a other)
    · exact congrArg (fun o : Option (Foo Tid) => o.elim 0 Foo.count) (rest a other)
    · exact congrArg (fun o : Option (Foo Tid) => o.map Foo.id) gone
    · exact congrArg (fun o : Option (Foo Tid) => o.elim 0 Foo.count) gone
    · simp [before, Thread.owned, Point.owns]
    · simp [before, Thread.owned, Point.owns, other.symm]

/-! ### Every access -/

/-- What a thread does next is no fault but for a count that overflows, and keeps all as it should
be. -/
theorem Sound.go (sound : Sound s chain) (before : s.threads t = ⟨refs, p⟩) :
    (s.go t p).Gives Kept (Overflows s (.go t)) := by
  have kept {r : Result (State Tid)} (all : r.All (Sound · chain)) :
      r.Gives Kept (Overflows s (.go t)) :=
    all.mono (fun _ sound => ⟨chain, sound⟩) False.elim
  have here : At s.view chain ⟨refs, p⟩ := before ▸ sound.counted.here t
  have mine {fp : Addr} (owns : p.owns = some fp) : 0 < (s.threads t).owned fp :=
    Thread.owned_pos (by rw [before]; exact owns)
  cases p with
  | idle => trivial
  | allocMalloc id => trivial
  | allocLockHash id fp => exact kept (sound.lockHash before rfl rfl rfl rfl rfl here)
  | allocNext id fp => exact kept (sound.allocNext before)
  | allocHead id fp => exact (sound.allocHead before).mono (fun _ sound => ⟨_, sound⟩) False.elim
  | allocLock fp =>
    obtain ⟨o, there⟩ := sound.there before rfl
    exact kept (sound.lockFoo before there (sound.unhidden (mine rfl)) rfl rfl rfl rfl rfl
      rfl trivial)
  | allocUnlockHash fp =>
    rw [State.go, before]
    exact kept (sound.unlockHash before rfl rfl rfl (fun _ => rfl) rfl rfl trivial)
  | allocUnlock fp =>
    rw [State.go, before]
    exact kept (sound.unlockFoo before rfl rfl rfl
      (owned_returns ⟨refs, .allocUnlock fp⟩ (show _ = some fp from rfl))
      rfl (not_sole rfl) trivial)
  | holdLock fp =>
    have member : 0 < (s.threads t).owned fp := Thread.owned_refs (by rw [before]; exact here)
    obtain ⟨o, there⟩ := there_of_ids (sound.counted.owned_live member)
    exact kept (sound.lockFoo before there (sound.unhidden member) rfl rfl rfl rfl rfl rfl here)
  | holdCount fp =>
    exact sound.takes before rfl rfl rfl rfl (by simp [Thread.owned, Point.owns])
      (fun a other => by simp [Thread.owned, Point.owns, other.symm]) rfl rfl fun _ _ => trivial
  | holdUnlock fp =>
    rw [State.go, before]
    exact kept (sound.unlockFoo before rfl rfl rfl
      (owned_returns ⟨refs, .holdUnlock fp⟩ (show _ = some fp from rfl))
      rfl (not_sole rfl) trivial)
  | findLockHash id => exact kept (sound.lockHash before rfl rfl rfl rfl rfl trivial)
  | findHead id =>
    rw [State.go, State.goesTo, setPoint_eq before]
    exact kept (sound.goesTo before rfl rfl (fun _ => rfl) rfl (not_sole rfl)
      ⟨[], chain (hash id), rfl, (sound.counted.linked _).head, by simp⟩)
  | findTest id next => exact kept (sound.findTest before)
  | findLock id fp =>
    obtain ⟨o, there⟩ := there_of_ids (sound.counted.chain_live here.1)
    exact kept (sound.lockFoo before there (fun u _ => ((sound.counted.member _ _).mp here.1).2 u)
      rfl rfl rfl rfl
      rfl rfl here)
  | findCount id fp =>
    exact sound.takes before rfl rfl rfl rfl (by simp [Thread.owned, Point.owns])
      (fun a other => by simp [Thread.owned, Point.owns, other.symm]) rfl rfl
      fun v ids => (congrFun ids fp).trans here.2
  | findUnlock id fp =>
    rw [State.go, before]
    exact kept (sound.unlockFoo before rfl rfl rfl (fun _ => rfl) rfl (not_sole rfl) here)
  | findUnlockHash id next =>
    rw [State.go, before]
    exact kept (sound.unlockHash before rfl rfl rfl
      (owned_returns ⟨refs, .findUnlockHash id next⟩ rfl)
      rfl rfl trivial)
  | releLock fp =>
    obtain ⟨o, there⟩ := sound.there before rfl
    exact kept (sound.lockFoo before there (sound.unhidden (mine rfl)) rfl rfl rfl rfl rfl
      rfl trivial)
  | releTest fp =>
    obtain ⟨o, there⟩ := sound.there before rfl
    rw [State.go, State.atFoo, there]
    simp only [State.goesTo, setPoint_eq before]
    by_cases last : o.count = 1
    · rw [if_pos last]
      exact kept (sound.goesTo before rfl rfl (fun _ => rfl) rfl (not_sole rfl) trivial)
    · rw [if_neg last]
      exact kept (sound.goesTo before rfl rfl (fun _ => rfl) rfl (not_sole rfl)
        ((view_there there).2.2.1.trans_ne last))
  | releUnlockFirst fp =>
    rw [State.go, before]
    exact kept (sound.unlockFoo before rfl rfl rfl (fun _ => rfl) rfl (not_sole rfl) trivial)
  | releLockHash fp => exact kept (sound.lockHash before rfl rfl rfl rfl rfl trivial)
  | releRelock fp =>
    obtain ⟨o, there⟩ := sound.there before rfl
    exact kept (sound.lockFoo before there (sound.unhidden (mine rfl)) rfl rfl rfl rfl rfl
      rfl trivial)
  | releRecheck fp =>
    obtain ⟨o, there⟩ := sound.there before rfl
    have counts := (view_there there).2.2.1
    rw [State.go, State.atFoo, there]
    simp only [State.goesTo, setPoint_eq before]
    by_cases last : o.count = 1
    · rw [if_neg (not_not.mpr last)]
      refine kept (sound.goesTo before rfl rfl (fun _ => rfl) rfl (fun a its => .inr ?_) trivial)
      obtain rfl := Option.some.inj its
      exact ⟨rfl, counts.trans last⟩
    · rw [if_pos last]
      exact kept (sound.goesTo before rfl rfl (fun _ => rfl) rfl (not_sole rfl)
        (counts.trans_ne last))
  | releRecount fp =>
    have many : s.view.counts fp ≠ 1 := here
    have small := counts_lt s fp
    exact kept (sound.addCount before rfl (by omega) (by omega) rfl rfl
      (by simp [Thread.owned, Point.owns])
      (fun a other => by simp [Thread.owned, Point.owns, other.symm]) rfl rfl fun _ _ => trivial)
  | releUnlockAgain fp =>
    rw [State.go, before]
    exact kept (sound.unlockFoo before rfl rfl rfl (fun _ => rfl) rfl (not_sole rfl) trivial)
  | releUnlockHashAgain =>
    rw [State.go, before]
    exact kept (sound.unlockHash before rfl rfl rfl (fun _ => rfl) rfl rfl trivial)
  | releHead fp => exact kept (sound.releHead before)
  | releUnlinkHead fp => exact (sound.releUnlinkHead before).mono (fun _ kept => kept) False.elim
  | releWalk fp tfp => exact kept (sound.releWalk before)
  | releUnlink fp tfp => exact (sound.releUnlink before).mono (fun _ kept => kept) False.elim
  | releUnlockHash fp =>
    rw [State.go, before]
    exact kept (sound.unlockHash before rfl rfl rfl (fun _ => rfl) rfl rfl trivial)
  | releUnlock fp =>
    rw [State.go, before]
    exact kept (sound.unlockFoo before rfl rfl rfl (fun _ => rfl) rfl (fun _ its => its) trivial)
  | releDestroy fp => exact kept (sound.releDestroy before)
  | releFree fp => exact kept (sound.releFree before)
  | releCount fp =>
    have many : s.view.counts fp ≠ 1 := here
    have small := counts_lt s fp
    exact kept (sound.addCount before rfl (by omega) (by omega) rfl rfl
      (by simp [Thread.owned, Point.owns])
      (fun a other => by simp [Thread.owned, Point.owns, other.symm]) rfl rfl fun _ _ => trivial)
  | releUnlockLast fp =>
    rw [State.go, before]
    exact kept (sound.unlockFoo before rfl rfl rfl (fun _ => rfl) rfl (not_sole rfl) trivial)

theorem Sound.act (sound : Sound s chain) (label : Label Tid) :
    (act s label).Gives Kept (Overflows s label) := by
  have kept {r : Result (State Tid)} (all : r.All (Sound · chain)) :
      r.Gives Kept (Overflows s label) :=
    all.mono (fun _ sound => ⟨chain, sound⟩) False.elim
  cases label with
  | call t request =>
    rw [Mutex2.act]
    by_cases idle : (s.threads t).point = .idle
    · have before : s.threads t = ⟨(s.threads t).refs, .idle⟩ := by rw [← idle]
      rw [if_pos idle]
      cases request with
      | alloc id =>
        rw [State.call, State.goesTo, setPoint_eq before]
        exact kept (sound.goesTo before rfl rfl (fun _ => rfl) rfl (not_sole rfl) trivial)
      | hold fp =>
        rw [State.call]
        by_cases member : fp ∈ (s.threads t).refs
        · rw [if_pos member, State.goesTo, setPoint_eq before]
          exact kept (sound.goesTo before rfl rfl (fun _ => rfl) rfl (not_sole rfl) member)
        · rw [if_neg member]
          trivial
      | find id =>
        rw [State.call, State.goesTo, setPoint_eq before]
        exact kept (sound.goesTo before rfl rfl (fun _ => rfl) rfl (not_sole rfl) trivial)
      | rele fp =>
        rw [State.call]
        by_cases member : fp ∈ (s.threads t).refs
        · rw [if_pos member]
          exact kept (sound.goesTo before rfl rfl
            (owned_erase (x := ⟨(s.threads t).refs, .idle⟩) rfl member rfl)
            rfl (not_sole rfl) trivial)
        · rw [if_neg member]
          trivial
    · rw [if_neg idle]
      trivial
  | malloc t fp =>
    rw [Mutex2.act]
    split
    · next id its =>
      have before : s.threads t = ⟨(s.threads t).refs, .allocMalloc id⟩ := by rw [← its]
      exact kept (sound.malloc before fp)
    · trivial
  | go t => exact sound.go rfl

omit [DecidableEq Tid] in
theorem Sound.init : Sound (State.init : State Tid) fun _ => [] := by
  refine ⟨fun t => ?_, fun a t => ?_, nofun, ?_⟩
  · exact iff_of_false nofun nofun
  · exact iff_of_false nofun nofun
  · refine ⟨fun a => ?_, fun a => ?_, nofun, fun i => rfl, fun i => List.nodup_nil, fun i a => ?_,
      fun t => trivial⟩
    · exact (Finset.sum_eq_zero fun t _ => rfl).symm
    · exact iff_of_false (Int.lt_irrefl 0) nofun
    · refine iff_of_false nofun ?_
      rintro ⟨⟨id, its, -⟩, -⟩
      cases its

theorem kept_step {s s' : State Tid} (kept : Kept s) {label : Label Tid}
    (next : step s label = some s') :
    Kept s' := by
  obtain ⟨chain, sound⟩ := kept
  have all := sound.act label
  rw [step] at next
  cases did : act s label with
  | blocked => simp [did] at next
  | fault => simp [did] at next
  | ok s'' =>
    rw [did] at next all
    exact Option.some.inj next ▸ all

/-! ### Every run -/

/-- What there is to say of the objects, the references and the answers of `foo_find`. -/
structure Good (s : State Tid) : Prop where
  /-- Nothing is done with memory that is freed, and no lock is left or destroyed that is not one's
  own. -/
  safe : ∀ label, act s label = .fault → Overflows s label
  live : ∀ t fp, fp ∈ (s.threads t).refs → ∃ o, s.heap fp = some o
  /-- No object is left without a reference, and none is freed that has one. -/
  count : ∀ fp o, s.heap fp = some o → 0 < o.count ∧ o.count = ∑ t, ((s.threads t).owned fp : Int)
  found : ∀ t id fp, (s.threads t).point = .findUnlockHash id (some fp) →
    ∃ o, s.heap fp = some o ∧ o.id = id
  /-- What is not found is not there, but for objects that are being set up or removed. -/
  missing : ∀ t id, (s.threads t).point = .findUnlockHash id none →
    ∀ fp o, s.heap fp = some o → o.id = id →
    ∃ u, (s.threads u).point.hidden = some fp

theorem Sound.good (sound : Sound s chain) : Good s := by
  refine ⟨fun label fault => ?_, fun t fp member => ?_, fun fp o there => ?_, fun t id fp its => ?_,
    fun t id its fp o there same => ?_⟩
  · have all := sound.act label
    rw [fault] at all
    exact all
  · exact there_of_ids (sound.counted.owned_live (Thread.owned_refs member))
  · obtain ⟨ids, -, counts, -⟩ := view_there there
    have live := (sound.counted.live fp).mpr (by rw [ids]; rfl)
    rw [← counts]
    exact ⟨live, sound.counted.count fp⟩
  · have here := sound.counted.here t
    rw [At, its] at here
    obtain ⟨o, there, same⟩ := Option.map_eq_some_iff.mp here
    exact ⟨o, there, same⟩
  · have here := sound.counted.here t
    rw [At, its] at here
    by_contra nobody
    have ids : s.view.ids fp = some id := by rw [(view_there there).1, same]
    exact here fp ((sound.counted.member _ fp).mpr ⟨⟨id, ids, rfl⟩, fun u away => nobody ⟨u, away⟩⟩)
      ids

/-- Whatever the threads call and however their accesses interleave. -/
theorem objects_kept (labels : List (Label Tid)) : Throughout step Good State.init labels :=
  throughout_of_steps (fun _ _ _ kept next => kept_step kept next)
    (fun _ ⟨_, sound⟩ => sound.good) _ labels
    ⟨_, Sound.init⟩

end Accesses

end Apue.Mutex2
