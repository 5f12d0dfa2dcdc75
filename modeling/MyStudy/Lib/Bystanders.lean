import MyStudy.Lib.FileMachine

/-!
# Bystanders

Some processes of a machine may still be at something else than their calls: they lock and read, but
they do not write. What all the others do is then a run of a machine in which those processes are
idle.
-/

namespace FileProgram

open Linearizability

variable {File E Pid Call Reply δ α : Type} [DecidableEq File]

/-- A program that does not write, and does not stop, on files of which `I` holds. -/
def Prog.LooksOn (I : Files File → Prop) (R : α → Prop) : Prog File E α → Prop
  | .ret a => R a
  | .stop _ => False
  | .op o next => ∀ files, I files → (o.exec files).2 = files ∧ (next (o.exec files).1).LooksOn I R

/-- The answer of a call, where other programs may have none. -/
def Prog.answering (prog : Prog File E (Reply × δ)) : Prog File E (Option Reply × δ) :=
  prog.bind fun a => .ret (some a.1, a.2)

/-- The event of a call. -/
def callEvent : Event Pid Call (Option Reply) → Option (Event Pid Call Reply)
  | .call p c => some (.call p c)
  | .reply p (some r) => some (.reply p r)
  | .reply _ none => none

/-- Locks that are among others. -/
def ByteLocks.Among (own' own : ByteLocks File) : Prop :=
  ∀ file i, own' file i ≠ none → own file i = own' file i

omit [DecidableEq File] in
theorem ByteLocks.Among.nothing {own : ByteLocks File} : ByteLocks.Among (fun _ _ => none) own :=
  fun _ _ locked => absurd rfl locked

theorem ByteLocks.Among.op {own' own : ByteLocks File} (among : own'.Among own) (o : Op File) :
    ByteLocks.Among (o.byteLocks own') (o.byteLocks own) := by
  intro file i locked
  cases o with
  | size | pread | pwrite => exact among file i locked
  | lock range kind =>
    change (if range.Covers file i then some kind else own' file i) ≠ none at locked
    change (if range.Covers file i then some kind else own file i) =
      if range.Covers file i then some kind else own' file i
    split
    · rfl
    next elsewhere => exact among file i (by rwa [if_neg elsewhere] at locked)
  | unlock range =>
    change (if range.Covers file i then none else own' file i) ≠ none at locked
    change (if range.Covers file i then none else own file i) =
      if range.Covers file i then none else own' file i
    split
    · rfl
    next elsewhere => exact among file i (by rwa [if_neg elsewhere] at locked)

namespace Machine

/-- A process, and what it is in the machine without bystanders. -/
inductive Stands (I : Files File → Prop) (d0 : δ) : ByteLocks File → ByteLocks File →
    Task File E (Option Reply) δ → Task File E Reply δ → Prop
  | bystander {own : ByteLocks File} {prog : Prog File E (Option Reply × δ)}
      (looksOn : prog.LooksOn I (· = (none, d0))) :
      Stands I d0 own (fun _ _ => none) (.running prog) (.idle d0)
  | idle {own own' : ByteLocks File} (among : own'.Among own) (d : δ) :
      Stands I d0 own own' (.idle d) (.idle d)
  | running {own own' : ByteLocks File} {prog : Prog File E (Reply × δ)}
      {prog' : Prog File E (Option Reply × δ)}
      (among : own'.Among own) (answers : prog' = prog.answering) :
    Stands I d0 own own' (.running prog') (.running prog)
  | stopped {own own' : ByteLocks File} (among : own'.Among own) (why : E) :
    Stands I d0 own own' (.stopped why) (.stopped why)

/-- A machine, and the one without its bystanders. -/
structure Beside (I : Files File → Prop) (d0 : δ) (g : Machine File E Pid (Option Reply) δ)
    (g' : Machine File E Pid Reply δ) : Prop where
  files : g.files = g'.files
  fine : I g.files
  stands : ∀ p, Stands I d0 (g.locks p) (g'.locks p) (g.tasks p) (g'.tasks p)

variable {I : Files File → Prop} {d0 : δ} {g : Machine File E Pid (Option Reply) δ}
  {g' : Machine File E Pid Reply δ} {own own' : ByteLocks File}

theorem Stands.among {t : Task File E (Option Reply) δ} {t' : Task File E Reply δ}
    (stands : Stands I d0 own own' t t') : own'.Among own := by
  cases stands with
  | bystander => exact .nothing
  | idle among | running among | stopped among => exact among

/-- What is granted among more locks is granted among less. -/
theorem Beside.granted (beside : Beside I d0 g g') {p : Pid} {o : Op File}
    (granted : o.Granted g.locks p) :
    o.Granted g'.locks p := by
  cases o with
  | size | pread | pwrite | unlock => trivial
  | lock range kind =>
    intro q other i covers
    have admits := granted q other i covers
    by_cases locked : g'.locks q range.file i = none
    · rw [locked]
      cases kind with
      | read => exact nofun
      | write => rfl
    · rwa [(beside.stands q).among range.file i locked] at admits

variable [DecidableEq Pid] {body : Call → δ → Prog File E (Reply × δ)}

/-- The other processes stand as they stood. -/
theorem Beside.update (beside : Beside I d0 g g') (p : Pid) {files files' : Files File}
    (same : files = files') (fine : I files) {own own' : ByteLocks File}
    {t : Task File E (Option Reply) δ} {t' : Task File E Reply δ}
    (stands : Stands I d0 own own' t t') :
    Beside I d0 ⟨files, Function.update g.locks p own, Function.update g.tasks p t⟩
      ⟨files', Function.update g'.locks p own', Function.update g'.tasks p t'⟩ := by
  refine ⟨same, fine, fun q => ?_⟩
  dsimp only
  by_cases here : q = p
  · subst here
    rwa [Function.update_self, Function.update_self, Function.update_self, Function.update_self]
  · rw [Function.update_of_ne here, Function.update_of_ne here, Function.update_of_ne here,
      Function.update_of_ne here]
    exact beside.stands q

/-- A step is one of the machine without bystanders, or one of a bystander. -/
theorem Beside.step (keeps : ∀ (o : Op File) files, I files → I (o.exec files).2)
    (beside : Beside I d0 g g') {e : Option (Event Pid Call (Option Reply))}
    {g1 : Machine File E Pid (Option Reply) δ}
    (step : Step (fun c d => (body c d).answering) g e g1) :
    ∃ g1', (Step body g' (e.bind callEvent) g1' ∨ (g1' = g' ∧ e.bind callEvent = none)) ∧
      Beside I d0 g1 g1' := by
  have same := beside.files
  cases step with
  | call p d c idle =>
    have stands := beside.stands p
    rw [idle] at stands
    generalize task : g'.tasks p = t', locked : g'.locks p = own' at stands
    cases stands with
    | idle among d =>
      refine ⟨_, .inl (.call p d c task), ?_⟩
      have next := beside.update p same beside.fine (.running among (Eq.refl (body c d).answering))
      rwa [Function.update_eq_self, ← locked, Function.update_eq_self] at next
  | op p o next running granted =>
    have stands := beside.stands p
    rw [running] at stands
    generalize task : g'.tasks p = t', locked : g'.locks p = own' at stands
    cases stands with
    | bystander looksOn =>
      -- it leaves the files as they are
      obtain ⟨unchanged, looksOn⟩ := looksOn g.files beside.fine
      refine ⟨g', .inr ⟨rfl, rfl⟩, ?_⟩
      have bystands : Stands I d0 (o.byteLocks (g.locks p)) _ _ _ := .bystander looksOn
      have next :=
        beside.update p (unchanged.trans same) (by rw [unchanged]; exact beside.fine) bystands
      rwa [← locked, Function.update_eq_self, ← task, Function.update_eq_self] at next
    | running among answers =>
      rename_i prog
      cases prog with
      | ret a => cases answers
      | stop why => cases answers
      | op o' next' =>
        cases answers
        refine ⟨_, .inl (.op p o next' task (beside.granted granted)), ?_⟩
        have fine := keeps o g.files beside.fine
        refine beside.update p (by rw [same]) fine (.running ?_ (by rw [same]; rfl))
        rw [locked]
        exact among.op o
  | reply p r d running =>
    have stands := beside.stands p
    rw [running] at stands
    generalize task : g'.tasks p = t', locked : g'.locks p = own' at stands
    cases stands with
    | bystander looksOn =>
      obtain ⟨rfl, rfl⟩ := Prod.mk.inj looksOn
      refine ⟨g', .inr ⟨rfl, rfl⟩, ?_⟩
      have idles :
          Stands I d (g.locks p) _ (.idle d : Task File E (Option Reply) δ)
          (.idle d : Task File E Reply δ) :=
        .idle .nothing d
      have next := beside.update p same beside.fine idles
      rwa [Function.update_eq_self, ← locked, Function.update_eq_self, ← task,
        Function.update_eq_self] at next
    | running among answers =>
      rename_i prog
      cases prog with
      | ret a =>
        cases answers
        refine ⟨_, .inl (.reply p a.1 a.2 task), ?_⟩
        have next := beside.update p same beside.fine (.idle among a.2)
        rwa [Function.update_eq_self, ← locked, Function.update_eq_self] at next
      | stop why => cases answers
      | op o' next' => cases answers
  | stop p why running =>
    have stands := beside.stands p
    rw [running] at stands
    generalize task : g'.tasks p = t', locked : g'.locks p = own' at stands
    cases stands with
    | bystander looksOn => exact looksOn.elim
    | running among answers =>
      rename_i prog
      cases prog with
      | ret a => cases answers
      | stop why' =>
        cases answers
        exact ⟨_, .inl (.stop p why task), beside.update p same beside.fine (.stopped .nothing why)⟩
      | op o' next' => cases answers

/-- **Bystanders do not count**: what the calls return in a run, they return in a run of the machine
in which the bystanders are idle. -/
theorem Beside.run (keeps : ∀ (o : Op File) files, I files → I (o.exec files).2)
    (beside : Beside I d0 g g') {h : History Pid Call (Option Reply)}
    {g1 : Machine File E Pid (Option Reply) δ}
    (run : Run (fun c d => (body c d).answering) g g1 h) :
    ∃ g1', Run body g' g1' (h.filterMap callEvent) ∧ Beside I d0 g1 g1' := by
  induction run with
  | start => exact ⟨g', .start, beside⟩
  | @step g1 g2 h e run step ih =>
    obtain ⟨g1', run', beside'⟩ := ih
    obtain ⟨g2', next, beside''⟩ := beside'.step keeps step
    refine ⟨g2', ?_, beside''⟩
    have last : e.toList.filterMap callEvent = (e.bind callEvent).toList := by
      cases e with
      | none => rfl
      | some event =>
        rw [Option.toList_some, Option.bind_some, List.filterMap_cons]
        cases callEvent event <;> rfl
    rw [List.filterMap_append, last]
    rcases next with next | ⟨rfl, nothing⟩
    · exact run'.step next
    · rwa [nothing, Option.toList_none, List.append_nil]

end Machine

end FileProgram
