import MyStudy.Lib.FileMachine

/-!
# The order of locks

Where every program waits only for bytes that rank behind those that it holds, the processes of a
machine cannot wait for one another in a circle: as long as one of them is in a call, one of them
can go on.
-/

namespace FileProgram

variable {File E α β : Type}

/-! ### Programs that lock in order -/

/-- Every byte that the operation waits for ranks behind every byte that is held. -/
def Op.Behind (rank : File → Nat → Nat) (held : List (Range File)) : Op File → Prop
  | .lock range _ =>
    ∀ range' ∈ held, ∀ i j, range'.Covers range'.file i → range.Covers range.file j →
      rank range'.file i < rank range.file j
  | _ => True

variable [DecidableEq File]

/-- A program locks in order from the ranges that it holds on, whatever its operations answer, and
returns with a value and ranges as told. One that stops loses its locks. -/
def Prog.InOrder (rank : File → Nat → Nat) :
    Prog File E α → List (Range File) → (α → List (Range File) → Prop) → Prop
  | .ret a, held, Q => Q a held
  | .stop _, _, _ => True
  | .op o next, held, Q => o.Behind rank held ∧ ∀ r, (next r).InOrder rank (o.ranges held) Q

namespace Prog.InOrder

variable {rank : File → Nat → Nat} {held : List (Range File)} {p : Prog File E α}
  {Q R : α → List (Range File) → Prop}

theorem mono (inOrder : p.InOrder rank held Q) (weaker : ∀ a held, Q a held → R a held) :
    p.InOrder rank held R := by
  induction p generalizing held with
  | ret a => exact weaker a held inOrder
  | stop why => trivial
  | op o next ih => exact ⟨inOrder.1, fun r => ih r (inOrder.2 r)⟩

theorem bind {f : α → Prog File E β} {S : β → List (Range File) → Prop}
    (inOrder : p.InOrder rank held Q) (later : ∀ a held, Q a held → (f a).InOrder rank held S) :
    (p.bind f).InOrder rank held S := by
  induction p generalizing held with
  | ret a => exact later a held inOrder
  | stop why => trivial
  | op o next ih => exact ⟨inOrder.1, fun r => ih r (inOrder.2 r)⟩

end Prog.InOrder

/-! ### Machines -/

namespace Machine

variable {Pid Call Reply δ : Type} [DecidableEq Pid] {body : Call → δ → Prog File E (Reply × δ)}
  {rank : File → Nat → Nat} {g g' : Machine File E Pid Reply δ}
    {e : Option (Linearizability.Event Pid Call Reply)}

/-- What a task may have locked. -/
def Task.Locks (rank : File → Nat → Nat) (own : ByteLocks File) : Task File E Reply δ → Prop
  | .idle _ => ∀ file i, own file i = none
  | .stopped _ => ∀ file i, own file i = none
  | .running prog => ∃ held, own.Inside held ∧ prog.InOrder rank held fun _ held => held = []

/-- Every process locks in order, and holds nothing between its calls. -/
def Ordered (rank : File → Nat → Nat) (g : Machine File E Pid Reply δ) : Prop :=
  ∀ p, Task.Locks rank (g.locks p) (g.tasks p)

theorem Ordered.step (bodies : ∀ c d, (body c d).InOrder rank [] fun _ held => held = [])
    (ordered : g.Ordered rank) (step : Step body g e g') : g'.Ordered rank := by
  intro q
  have before := ordered q
  cases step with
  | call p d c idle =>
    by_cases same : q = p
    · subst same
      rw [idle] at before
      dsimp only
      rw [Function.update_self]
      exact ⟨[], fun file i locked => absurd (before file i) locked, bodies c d⟩
    · dsimp only
      rwa [Function.update_of_ne same]
  | op p o next running granted =>
    dsimp only [perform]
    by_cases same : q = p
    · subst same
      rw [running] at before
      obtain ⟨held, inside, -, later⟩ := before
      rw [Function.update_self, Function.update_self]
      exact ⟨o.ranges held, inside.op o, later _⟩
    · rwa [Function.update_of_ne same, Function.update_of_ne same]
  | reply p r d running =>
    by_cases same : q = p
    · subst same
      rw [running] at before
      obtain ⟨held, inside, rfl⟩ := before
      dsimp only
      rw [Function.update_self]
      exact fun file i => congrFun (congrFun inside.nothing file) i
    · dsimp only
      rwa [Function.update_of_ne same]
  | stop p why running =>
    dsimp only
    by_cases same : q = p
    · subst same
      rw [Function.update_self, Function.update_self]
      exact fun _ _ => rfl
    · rwa [Function.update_of_ne same, Function.update_of_ne same]

theorem Ordered.run {h : Linearizability.History Pid Call Reply}
    (bodies : ∀ c d, (body c d).InOrder rank [] fun _ held => held = []) (ordered : g.Ordered rank)
    (run : Run body g g' h) : g'.Ordered rank := by
  induction run with
  | start => exact ordered
  | step run step ih => exact ih.step bodies step

/-- Some process goes on with a call that it is in. -/
def GoesOn (body : Call → δ → Prog File E (Reply × δ)) (g : Machine File E Pid Reply δ) : Prop :=
  ∃ e g', Step body g e g' ∧ ∀ p c, e ≠ some (.call p c)

/-- A process that cannot go on waits for a byte that another one has locked. -/
theorem waits (stuck : ¬ GoesOn body g) {p : Pid} {prog : Prog File E (Reply × δ)}
    (running : g.tasks p = .running prog) :
    ∃ range kind next, prog = .op (.lock range kind) next ∧
      ∃ q i, range.Covers range.file i ∧ g.locks q range.file i ≠ none := by
  cases prog with
  | ret a => exact absurd ⟨_, _, .reply p a.1 a.2 running, nofun⟩ stuck
  | stop why => exact absurd ⟨_, _, .stop p why running, nofun⟩ stuck
  | op o next =>
    have refused : ¬ o.Granted g.locks p := fun granted =>
      stuck ⟨_, _, .op p o next running granted, nofun⟩
    cases o with
    | size | pread | pwrite | unlock => exact absurd trivial refused
    | lock range kind =>
      rw [Op.Granted] at refused
      push Not at refused
      obtain ⟨q, -, i, covers, conflict⟩ := refused
      refine ⟨range, kind, next, rfl, q, i, covers, fun free => conflict ?_⟩
      rw [free]
      cases kind with
      | read => exact nofun
      | write => rfl

/-- The ranks along a chain of processes that wait for one another go up. -/
theorem Ordered.goesOn_of_locked (ordered : g.Ordered rank) {bound : Nat}
    (bounded : ∀ file i, rank file i < bound) {q : Pid} {file : File} {i : Nat}
    (locked : g.locks q file i ≠ none) : GoesOn body g := by
  by_contra stuck
  -- the induction is on how many ranks there are behind the byte that is waited for
  induction left : bound - rank file i using Nat.strong_induction_on generalizing q file i with
  | _ n ih =>
    have here := ordered q
    cases task : g.tasks q with
    | idle d =>
      rw [task] at here
      exact locked (here file i)
    | stopped why =>
      rw [task] at here
      exact locked (here file i)
    | running prog =>
      rw [task] at here
      obtain ⟨held, inside, inOrder⟩ := here
      obtain ⟨range, kind, next, rfl, q', j, covers, locked'⟩ := waits stuck task
      obtain ⟨range', member, covers'⟩ := inside file i locked
      obtain rfl := covers'.1
      have up := inOrder.1 range' member i j covers' covers
      have within := bounded range.file j
      exact ih (bound - rank range.file j) (by omega) locked' rfl

/-- **No deadlock**: as long as a process is in a call, some process goes on. -/
theorem Ordered.goesOn (ordered : g.Ordered rank) {bound : Nat}
    (bounded : ∀ file i, rank file i < bound) {p : Pid} {prog : Prog File E (Reply × δ)}
    (running : g.tasks p = .running prog) : GoesOn body g := by
  by_contra stuck
  obtain ⟨range, kind, next, -, q, i, -, locked⟩ := waits stuck running
  exact stuck (ordered.goesOn_of_locked bounded locked)

end Machine

end FileProgram
