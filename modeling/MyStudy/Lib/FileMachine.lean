import MyStudy.Lib.FileProgram
import MyStudy.Lib.Linearizable

/-!
# Processes on the same files

Processes make calls, and each call is a program on files that all of them share. Their operations
come in any order; one that takes a record lock has to wait while a lock of another process stands
in its way. A process that stops loses its locks.
-/

namespace FileProgram

open Linearizability

variable {File E Pid Call Reply δ : Type}

/-! ### Record locks -/

instance [DecidableEq File] (range : Range File) (file : File) (i : Nat) :
    Decidable (range.Covers file i) :=
  inferInstanceAs (Decidable (range.file = file ∧ range.start ≤ i ∧
    (range.len = 0 ∨ i < range.start + range.len)))

/-- The locks of a process on the bytes of the files. -/
abbrev ByteLocks (File : Type) := File → Nat → Option LockKind

/-- What another process may have locked. -/
def LockKind.Admits : LockKind → Option LockKind → Prop
  | .read, other => other ≠ some .write
  | .write, other => other = none

def Op.Granted (locks : Pid → ByteLocks File) (p : Pid) : Op File → Prop
  | .lock range kind =>
    ∀ q, q ≠ p → ∀ i, range.Covers range.file i → kind.Admits (locks q range.file i)
  | _ => True

/-- The locks of the process that does it. -/
def Op.byteLocks [DecidableEq File] (own : ByteLocks File) : Op File → ByteLocks File
  | .lock range kind => fun file i => if range.Covers file i then some kind else own file i
  | .unlock range => fun file i => if range.Covers file i then none else own file i
  | _ => own

/-! ### The machine -/

inductive Task (File E Reply δ : Type) where
  | idle (d : δ)
  | running (prog : Prog File E (Reply × δ))
  | stopped (why : E)

structure Machine (File E Pid Reply δ : Type) where
  files : Files File
  locks : Pid → ByteLocks File
  tasks : Pid → Task File E Reply δ

namespace Machine

variable [DecidableEq File] [DecidableEq Pid]

/-- A process does an operation. -/
def perform (g : Machine File E Pid Reply δ) (p : Pid) (o : Op File)
    (next : o.Result → Prog File E (Reply × δ)) : Machine File E Pid Reply δ where
  files := (o.exec g.files).2
  locks := Function.update g.locks p (o.byteLocks (g.locks p))
  tasks := Function.update g.tasks p (.running (next (o.exec g.files).1))

variable (body : Call → δ → Prog File E (Reply × δ))

inductive Step : Machine File E Pid Reply δ → Option (Event Pid Call Reply) →
    Machine File E Pid Reply δ → Prop
  | call {g : Machine File E Pid Reply δ} (p : Pid) (d : δ) (c : Call)
      (idle : g.tasks p = .idle d) :
    Step g (some (.call p c)) { g with tasks := Function.update g.tasks p (.running (body c d)) }
  | op {g : Machine File E Pid Reply δ} (p : Pid) (o : Op File)
      (next : o.Result → Prog File E (Reply × δ))
      (running : g.tasks p = .running (.op o next)) (granted : o.Granted g.locks p) :
    Step g none (g.perform p o next)
  | reply {g : Machine File E Pid Reply δ} (p : Pid) (r : Reply) (d : δ)
      (running : g.tasks p = .running (.ret (r, d))) :
    Step g (some (.reply p r)) { g with tasks := Function.update g.tasks p (.idle d) }
  | stop {g : Machine File E Pid Reply δ} (p : Pid) (why : E)
      (running : g.tasks p = .running (.stop why)) :
    Step g none
      { g with
        locks := Function.update g.locks p fun _ _ => none
        tasks := Function.update g.tasks p (.stopped why) }

/-- A run with its history. -/
inductive Run (g : Machine File E Pid Reply δ) :
    Machine File E Pid Reply δ → History Pid Call Reply → Prop
  | start : Run g g []
  | step {g' g'' : Machine File E Pid Reply δ} {h : History Pid Call Reply}
      {e : Option (Event Pid Call Reply)}
      (run : Run g g' h) (step : Step body g' e g'') : Run g g'' (h ++ e.toList)

variable {body}

theorem Step.stopped {g g' : Machine File E Pid Reply δ} {e : Option (Event Pid Call Reply)}
    {q : Pid} {why : E} (step : Step body g e g') (stopped : g.tasks q = .stopped why) :
    g'.tasks q = .stopped why := by
  cases step with
  | call p d c task | op p o next task granted | reply p r d task | stop p why' task =>
    by_cases same : q = p
    · subst same
      rw [stopped] at task
      cases task
    · exact (Function.update_of_ne same _ _).trans stopped

end Machine

/-! ### A process that nobody disturbs -/

section Undisturbed

variable [DecidableEq File]

/-- Only bytes of these ranges are locked. -/
def ByteLocks.Inside (own : ByteLocks File) (held : List (Range File)) : Prop :=
  ∀ file i, own file i ≠ none → ∃ range ∈ held, range.Covers file i

theorem ByteLocks.Inside.op {own : ByteLocks File} {held : List (Range File)}
    (inside : own.Inside held) (o : Op File) :
    ByteLocks.Inside (o.byteLocks own) (o.ranges held) := by
  intro file i locked
  cases o with
  | size | pread | pwrite => exact inside file i locked
  | lock range kind =>
    change (if range.Covers file i then some kind else own file i) ≠ none at locked
    split at locked
    next here => exact ⟨range, List.mem_cons_self, here⟩
    next elsewhere =>
      obtain ⟨range', member, covers⟩ := inside file i locked
      exact ⟨range', List.mem_cons_of_mem range member, covers⟩
  | unlock range =>
    change (if range.Covers file i then none else own file i) ≠ none at locked
    split at locked
    · exact absurd rfl locked
    next elsewhere =>
      obtain ⟨range', member, covers⟩ := inside file i locked
      refine ⟨range', List.mem_filter.mpr ⟨member, decide_eq_true ?_⟩, covers⟩
      rintro rfl
      exact elsewhere covers

omit [DecidableEq File] in
theorem ByteLocks.inside_nil : ByteLocks.Inside (fun _ _ => none : ByteLocks File) [] := nofun

omit [DecidableEq File] in
theorem ByteLocks.Inside.nothing {own : ByteLocks File} (inside : own.Inside []) :
    own = fun _ _ => none := by
  funext file i
  by_contra locked
  obtain ⟨range, member, -⟩ := inside file i locked
  cases member

namespace Machine

variable [DecidableEq Pid] {body : Call → δ → Prog File E (Reply × δ)}
  {g g0 : Machine File E Pid Reply δ} {h : History Pid Call Reply} {p : Pid}

/-- How a program goes on when it has run. -/
def ended : Except E α → Prog File E α
  | .ok a => .ret a
  | .error why => .stop why

theorem Run.alone {prog : Prog File E (Reply × δ)} {held : List (Range File)}
    (run : Run body g0 g h) (task : g.tasks p = .running prog)
    (others : ∀ q, q ≠ p → g.locks q = fun _ _ => none) (inside : (g.locks p).Inside held) :
    ∃ mine : ByteLocks File, mine.Inside (prog.unreleased g.files held) ∧ Run body g0
      { files := (prog.run g.files).2
        locks := Function.update g.locks p mine
        tasks := Function.update g.tasks p (.running (ended (prog.run g.files).1)) } h := by
  induction prog generalizing g held with
  | ret a =>
    refine ⟨g.locks p, inside, ?_⟩
    change Run body g0 ⟨g.files, _, Function.update g.tasks p (.running (.ret a))⟩ h
    rwa [Function.update_eq_self, ← task, Function.update_eq_self]
  | stop why =>
    refine ⟨g.locks p, inside, ?_⟩
    change Run body g0 ⟨g.files, _, Function.update g.tasks p (.running (.stop why))⟩ h
    rwa [Function.update_eq_self, ← task, Function.update_eq_self]
  | op o next ih =>
    -- nobody else has a lock, so every lock is granted at once
    have granted : o.Granted g.locks p := by
      cases o with
      | size | pread | pwrite | unlock => trivial
      | lock range kind =>
        intro q other i _
        rw [others q other]
        cases kind with
        | read => simp [LockKind.Admits]
        | write => rfl
    have after : Run body g0 (g.perform p o next) h := by
      have longer := run.step (.op p o next task granted)
      rwa [Option.toList_none, List.append_nil] at longer
    have inside' : ((g.perform p o next).locks p).Inside (o.ranges held) := by
      rw [perform]
      dsimp only
      rw [Function.update_self]
      exact inside.op o
    obtain ⟨mine, inside'', run'⟩ := ih (o.exec g.files).1 after (Function.update_self p _ g.tasks)
      (fun q other => (Function.update_of_ne other _ _).trans (others q other)) inside'
    refine ⟨mine, inside'', ?_⟩
    rw [perform] at run'
    dsimp only at run'
    rw [Function.update_idem, Function.update_idem] at run'
    exact run'

/-- A machine in which nothing is locked. -/
def unlocked (files : Files File) (tasks : Pid → Task File E Reply δ) :
    Machine File E Pid Reply δ :=
  ⟨files, fun _ _ _ => none, tasks⟩

variable {files : Files File} {tasks : Pid → Task File E Reply δ} {prog : Prog File E (Reply × δ)}

theorem Run.begin (run : Run body g0 (unlocked files tasks) h) (p : Pid) (c : Call) {d : δ}
    (idle : tasks p = .idle d) :
    Run body g0 (unlocked files (Function.update tasks p (.running (body c d))))
      (h ++ [.call p c]) :=
  run.step (.call p d c idle)

omit [DecidableEq File] in
private theorem nothing_locked (p : Pid) : (Function.update (fun _ _ _ => none) p fun _ _ => none) =
    (fun _ _ _ => none : Pid → ByteLocks File) := Function.update_eq_self_iff.mpr rfl

/-- A call that no other one disturbs from here on. -/
theorem Run.complete (run : Run body g0 (unlocked files tasks) h) (p : Pid)
    (task : tasks p = .running prog) {files' : Files File} {r : Reply} {d : δ}
    (returns : prog.run files = (.ok (r, d), files')) (released : prog.unreleased files [] = []) :
    Run body g0 (unlocked files' (Function.update tasks p (.idle d))) (h ++ [.reply p r]) := by
  obtain ⟨mine, inside, done⟩ := run.alone task (fun _ _ => rfl) ByteLocks.inside_nil
  rw [unlocked] at inside done
  dsimp only at inside done
  rw [released] at inside
  rw [inside.nothing, nothing_locked, returns] at done
  have replied := done.step (.reply p r d (Function.update_self p _ tasks))
  dsimp only at replied
  rw [Function.update_idem] at replied
  exact replied

/-- A call that ends its process. -/
theorem Run.die (run : Run body g0 (unlocked files tasks) h) (p : Pid)
    (task : tasks p = .running prog) {files' : Files File} {why : E}
    (stops : prog.run files = (.error why, files')) :
    Run body g0 (unlocked files' (Function.update tasks p (.stopped why))) h := by
  obtain ⟨mine, -, done⟩ := run.alone task (fun _ _ => rfl) ByteLocks.inside_nil
  rw [unlocked] at done
  dsimp only at done
  rw [stops] at done
  have stopped := done.step (.stop p why (Function.update_self p _ tasks))
  dsimp only at stopped
  rw [Function.update_idem, Function.update_idem, nothing_locked, Option.toList_none,
    List.append_nil] at stopped
  exact stopped

end Machine

end Undisturbed

end FileProgram
