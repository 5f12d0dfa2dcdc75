import MyStudy.Apue.DbConcurrent
import MyStudy.Lib.Bystanders

/-!
# Processes that open the database

Any number of processes have opened the two files, with `O_CREAT` and `O_TRUNC`, and come to the
rest of `db_open` while others already call the library. The first one that locks the index file
makes the database, and the others leave it as it is.
-/
namespace Apue

open FileProgram Linearizability

/-! ### The steps of `db_open` -/

/-- `db_open` has no answer that a call could have. -/
def opening : DbProg (Option Reply × DB) := (dbOpen DB.alloc).bind fun p => .ret (none, p.2)

def wholeIdx : Range DbFile := ⟨.idx, 0, 0⟩

/-- The handle that `db_open` returns. -/
def openedDb : DB :=
  { DB.alloc with
    idxpos := recordsOff
    idxoff := recordsOff }

def closing : DbProg (Option Reply × DB) := .op (.unlock wholeIdx) fun _ => .ret (none, openedDb)

def creating : DbProg (Option Reply × DB) := .op (.pwrite .idx 0 hashTable) fun _ => closing

def checking : DbProg (Option Reply × DB) :=
  .op (.size .idx) fun n => if n = 0 then creating else closing

theorem dbRewind_eq (db : DB) :
    dbRewind db = .ret (⟨⟩, { db.setPos recordsOff .idx with idxoff := recordsOff }) := by
  rw [dbRewind, bind_apply, lseek_set .idx recordsOff _ db (by decide)]
  rfl

theorem opening_eq : opening = .op (.lock wholeIdx .write) fun _ => checking := by
  refine congrArg (Prog.op _) (funext fun _ => congrArg (Prog.op _) (funext fun n => ?_))
  by_cases empty : n = 0
  · rw [if_pos empty]
    change Prog.bind ((if n = 0 then _ else _ : DbM Unit) DB.alloc) _ = _
    rw [if_pos empty]
    refine congrArg (Prog.op _) (funext fun _ => congrArg (Prog.op _) (funext fun _ => ?_))
    change Prog.bind (dbRewind _) _ = _
    rw [dbRewind_eq]
    rfl
  · rw [if_neg empty]
    change Prog.bind ((if n = 0 then _ else _ : DbM Unit) DB.alloc) _ = _
    rw [if_neg empty]
    refine congrArg (Prog.op _) (funext fun _ => ?_)
    change Prog.bind (dbRewind _) _ = _
    rw [dbRewind_eq]
    rfl

/-! ### Before the database is made -/

section Runs

variable {Pid : Type} [DecidableEq Pid]

abbrev OpeningMachine (Pid : Type) := Machine DbFile Stop Pid (Option Reply) DB

/-- The calls of the processes, once they have opened the database. -/
abbrev answeringCalls (c : TextCall) (db : DB) : DbProg (Option Reply × DB) :=
  (c.1.run db).answering

/-- Where a process is in `db_open`, before the database is made. -/
def Early (own : ByteLocks DbFile) (task : Task DbFile Stop (Option Reply) DB) : Prop :=
  (task = .running opening ∧ own = fun _ _ => none) ∨
    (task = .running checking ∨ task = .running creating) ∧ own .idx 0 ≠ none

/-- Nobody has written anything, and at most one process holds the index file. -/
structure Untouched (g : OpeningMachine Pid) : Prop where
  files : g.files = emptyFiles
  early : ∀ p, Early (g.locks p) (g.tasks p)
  once : ∀ p q, g.locks p .idx 0 ≠ none → g.locks q .idx 0 ≠ none → p = q

/-- The index file is not empty. -/
def Made (files : Files DbFile) : Prop := files .idx ≠ []

theorem made_exec (o : Op DbFile) (files : Files DbFile) (made : Made files) :
    Made (o.exec files).2 := by
  cases o with
  | size | pread | lock | unlock => exact made
  | pwrite file offset data =>
    cases file with
    | dat => exact made
    | idx =>
      change overwrite (files .idx) offset data ≠ []
      rw [overwrite]
      split
      · exact made
      next nonempty =>
        intro empty
        exact nonempty (List.append_eq_nil_iff.mp (List.append_eq_nil_iff.mp empty).1).2

theorem closing_looksOn : closing.LooksOn Made (· = (none, openedDb)) := fun _ _ => ⟨rfl, rfl⟩

/-- When the database is there, `db_open` does not write. -/
theorem checking_looksOn : checking.LooksOn Made (· = (none, openedDb)) := by
  intro files made
  refine ⟨rfl, ?_⟩
  have nonempty : ¬ (files .idx).length = 0 := by rwa [List.length_eq_zero_iff]
  change (if (files .idx).length = 0 then creating else closing).LooksOn _ _
  rw [if_neg nonempty]
  exact closing_looksOn

theorem opening_looksOn : opening.LooksOn Made (· = (none, openedDb)) := by
  rw [opening_eq]
  exact fun _ _ => ⟨rfl, checking_looksOn⟩

theorem exec_create : ((Op.pwrite DbFile.idx 0 hashTable).exec emptyFiles).2 = freshFiles := by
  change Function.update emptyFiles .idx (overwrite (emptyFiles .idx) 0 hashTable) = freshFiles
  funext file
  cases file with
  | idx =>
    rw [Function.update_self, overwrite, if_neg (by simp [hashTable])]
    simp [emptyFiles, freshFiles]
  | dat => rfl

/-- The step that makes the database. -/
theorem Untouched.create {g : OpeningMachine Pid} (untouched : Untouched g) {p : Pid}
    (running : g.tasks p = .running creating) (locked : g.locks p .idx 0 ≠ none) :
    Machine.Beside Made openedDb (g.perform p (.pwrite .idx 0 hashTable) fun _ => closing)
      (opened freshFiles fun _ => openedDb) := by
  have files : ((Op.pwrite DbFile.idx 0 hashTable).exec g.files).2 = freshFiles := by
    rw [untouched.files, exec_create]
  refine ⟨files, ?_, fun q => ?_⟩
  · change ((Op.pwrite DbFile.idx 0 hashTable).exec g.files).2 .idx ≠ []
    rw [files]
    simp [freshFiles, hashTable]
  · change Machine.Stands _ _ (Function.update g.locks p _ q) (fun _ _ => none)
      (Function.update g.tasks p _ q) _
    by_cases same : q = p
    · subst same
      rw [Function.update_self, Function.update_self]
      exact .bystander closing_looksOn
    · -- the others have not locked the file yet
      rw [Function.update_of_ne same, Function.update_of_ne same]
      rcases untouched.early q with ⟨task, -⟩ | ⟨-, locked'⟩
      · rw [task]
        exact .bystander opening_looksOn
      · exact absurd (untouched.once q p locked' locked) same

/-- A process goes from one step of `db_open` to the next. -/
theorem Untouched.update {g : OpeningMachine Pid} (untouched : Untouched g) (p : Pid)
    {own : ByteLocks DbFile} {task : Task DbFile Stop (Option Reply) DB} (early : Early own task)
    (alone : ∀ q, q ≠ p → g.locks q .idx 0 = none) :
    Untouched (⟨g.files, Function.update g.locks p own, Function.update g.tasks p task⟩ :
      OpeningMachine Pid) := by
  have other (q : Pid) (locked' : Function.update g.locks p own q .idx 0 ≠ none) : q = p := by
    by_contra different
    rw [Function.update_of_ne different] at locked'
    exact locked' (alone q different)
  refine ⟨untouched.files, fun q => ?_,
    fun q q' first second => (other q first).trans (other q' second).symm⟩
  dsimp only
  by_cases same : q = p
  · subst same
    rwa [Function.update_self, Function.update_self]
  · rw [Function.update_of_ne same, Function.update_of_ne same]
    exact untouched.early q

/-- The first steps of the processes: the database is made at once, or nothing happens that a call
could see. -/
theorem Untouched.step {g g1 : OpeningMachine Pid} (untouched : Untouched g)
    {e : Option (Event Pid TextCall (Option Reply))} (step : Machine.Step answeringCalls g e g1) :
    e = none ∧
      (Untouched g1 ∨ Machine.Beside Made openedDb g1 (opened freshFiles fun _ => openedDb)) := by
  cases step with
  | call p d c idle =>
    rcases untouched.early p with ⟨task, -⟩ | ⟨task | task, -⟩ <;> rw [task] at idle <;> cases idle
  | reply p r d running =>
    rcases untouched.early p with ⟨task, -⟩ | ⟨task | task, -⟩ <;> rw [task] at running <;>
      cases running
  | stop p why running =>
    rcases untouched.early p with ⟨task, -⟩ | ⟨task | task, -⟩ <;> rw [task] at running <;>
      cases running
  | op p o next running granted =>
    refine ⟨rfl, ?_⟩
    rcases untouched.early p with ⟨task, free⟩ | ⟨task | task, locked⟩
    · -- it gets the lock, so that nobody else has it
      rw [task, opening_eq] at running
      cases running
      have whole : wholeIdx.Covers .idx 0 := ⟨rfl, Nat.le_refl _, .inl rfl⟩
      have held : (Op.lock wholeIdx .write).byteLocks (g.locks p) .idx 0 ≠ none := by
        change (if wholeIdx.Covers .idx 0 then some LockKind.write else g.locks p .idx 0) ≠ none
        rw [if_pos whole]
        exact nofun
      exact .inl (untouched.update p (.inr ⟨.inl rfl, held⟩) fun q other => granted q other 0 whole)
    · rw [task] at running
      cases running
      have alone (q : Pid) (other : q ≠ p) : g.locks q .idx 0 = none := by
        by_contra locked'
        exact other (untouched.once q p locked' locked)
      refine .inl (untouched.update p (.inr ⟨.inr ?_, locked⟩) alone)
      rw [untouched.files]
      rfl
    · rw [task] at running
      cases running
      exact .inr (untouched.create task locked)

/-- A run in which processes open the database, and call the library when they have done so. -/
theorem opened_run {g : OpeningMachine Pid} {h : History Pid TextCall (Option Reply)}
    (run : Machine.Run answeringCalls (.unlocked emptyFiles fun _ => .running opening) g h) :
    (Untouched g ∧ h = []) ∨ ∃ g1 : OpeningMachine Pid,
      Machine.Beside Made openedDb g1 (opened freshFiles fun _ => openedDb) ∧
        Machine.Run answeringCalls g1 g h := by
  induction run with
  | start => exact .inl ⟨⟨rfl, fun _ => .inl ⟨rfl, rfl⟩, fun p q locked => absurd rfl locked⟩, rfl⟩
  | step run step ih =>
    rcases ih with ⟨untouched, rfl⟩ | ⟨g1, beside, run'⟩
    · obtain ⟨rfl, untouched' | beside⟩ := untouched.step step
      · exact .inl ⟨untouched', rfl⟩
      · exact .inr ⟨_, beside, .start⟩
    · exact .inr ⟨g1, beside, run'.step step⟩

/-- **The database is made once**: what the calls return is what a map would have returned that was
empty at first, however the processes that open the database come between them. -/
theorem openings_linearizable {g : OpeningMachine Pid} {h : History Pid TextCall (Option Reply)}
    (run : Machine.Run answeringCalls (.unlocked emptyFiles fun _ => .running opening) g h)
    (alive : ∀ p why, g.tasks p ≠ .stopped why) :
    Linearizable (h.filterMap callEvent) (fun c : TextCall => c.1.onMap) fun _ => none := by
  rcases opened_run run with ⟨-, rfl⟩ | ⟨g1, beside, run'⟩
  · exact calls_linearizable freshFiles_holds Contents.empty_sane.fine (fun _ : Pid => openedDb)
      .start nofun
  · obtain ⟨g', calls, beside'⟩ := beside.run made_exec run'
    refine calls_linearizable freshFiles_holds Contents.empty_sane.fine _ calls
      fun p why stopped => ?_
    have stands := beside'.stands p
    rw [stopped] at stands
    generalize task : g.tasks p = t, g.locks p = own, g'.locks p = own' at stands
    cases stands with
    | stopped among why => exact alive p why task

end Runs

theorem run_answering {prog : DbProg (Reply × DB)} {files files' : Files DbFile} {r : Reply}
    {d : DB} (returns : prog.run files = (.ok (r, d), files')) :
    prog.answering.run files = (.ok (some r, d), files') := by
  rw [Prog.answering, Prog.run_bind, returns]
  rfl

theorem unreleased_answering (prog : DbProg (Reply × DB)) (files : Files DbFile)
    (held : List (Range DbFile)) :
    prog.answering.unreleased files held = prog.unreleased files held := by
  induction prog generalizing files held with
  | ret a => rfl
  | stop why => rfl
  | op o next ih => exact ih _ _ _

theorem closing_unreleased (files : Files DbFile) : closing.unreleased files [wholeIdx] = [] := by
  change (Op.unlock wholeIdx).ranges [wholeIdx] = []
  simp [Op.ranges]

theorem opening_run_empty : opening.run emptyFiles = (.ok (none, openedDb), freshFiles) ∧
    opening.unreleased emptyFiles [] = [] := by
  rw [opening_eq]
  refine ⟨?_, closing_unreleased freshFiles⟩
  rw [← exec_create]
  rfl

theorem opening_run_made {files : Files DbFile} (made : Made files) :
    opening.run files = (.ok (none, openedDb), files) ∧ opening.unreleased files [] = [] := by
  have nonempty : ¬ (files .idx).length = 0 := by rwa [List.length_eq_zero_iff]
  have same : (checking.run files = closing.run files) ∧
      checking.unreleased files [wholeIdx] = closing.unreleased files [wholeIdx] := by
    constructor
    · change (if (files .idx).length = 0 then creating else closing).run files = _
      rw [if_neg nonempty]
    · change (if (files .idx).length = 0 then creating else closing).unreleased files [wholeIdx] = _
      rw [if_neg nonempty]
  rw [opening_eq]
  exact ⟨same.1, same.2.trans (closing_unreleased files)⟩

theorem made_run {α : Type} (prog : DbProg α) {files : Files DbFile} (made : Made files) :
    Made (prog.run files).2 := by
  induction prog generalizing files with
  | ret a => exact made
  | stop why => exact made
  | op o next ih => exact ih _ (made_exec o files made)

/-- A process stores a record before another one has begun to open the database, and that one finds
it. -/
theorem openings_linearizable_late :
    ∃ (g : OpeningMachine Bool) (h : History Bool TextCall (Option Reply)),
      h.filterMap callEvent =
      [.call true ⟨.store [107] [97] .insert, by decide⟩, .reply true (.code 0),
        .call false ⟨.fetch [107], by decide⟩, .reply false (.data (some [97]))] ∧
      Machine.Run answeringCalls (.unlocked emptyFiles fun _ => .running opening) g h ∧
      Linearizable (h.filterMap callEvent) (fun c : TextCall => c.1.onMap) fun _ => none := by
  have proper : (Call.store [107] [97] .insert).Proper := by decide
  have roomy : (Call.store [107] [97] .insert).Roomy Contents.empty := by decide
  have sane := Contents.empty_sane.effect proper roomy
  -- one process opens the database and stores
  have starts : Machine.Run answeringCalls (.unlocked emptyFiles fun _ : Bool => .running opening)
      (.unlocked emptyFiles fun _ => .running opening) [] := .start
  have opens := starts.complete true rfl opening_run_empty.1 opening_run_empty.2
  obtain ⟨d1, files1, runs1, released1, holds1⟩ :=
    call_run (.store [107] [97] .insert) _ _ openedDb proper.valid
    Contents.empty_sane.fine (Contents.empty_sane.fits proper roomy) freshFiles_holds
  have stores :=
    (opens.begin true ⟨.store [107] [97] .insert, by decide⟩ (Function.update_self _ _ _)).complete
    true
    (Function.update_self _ _ _) (run_answering runs1)
    ((unreleased_answering _ _ _).trans released1)
  -- the other one comes to it then
  have made : Made files1 := by
    have fresh : Made freshFiles := by simp [Made, freshFiles, hashTable]
    have made' := made_run ((Call.store [107] [97] .insert).run openedDb) fresh
    rwa [runs1] at made'
  have opens' := stores.complete false rfl (opening_run_made made).1 (opening_run_made made).2
  obtain ⟨d2, files2, runs2, released2, holds2⟩ :=
    call_run (.fetch [107]) _ _ openedDb trivial sane.fine
    (sane.fits (by decide) (by decide)) holds1
  have fetches :=
    (opens'.begin false ⟨.fetch [107], by decide⟩ (Function.update_self _ _ _)).complete false
    (Function.update_self _ _ _) (run_answering runs2)
    ((unreleased_answering _ _ _).trans released2)
  refine ⟨_, _, ?_, fetches, openings_linearizable fetches fun p why stopped => ?_⟩
  · decide
  · cases p <;> cases stopped

end Apue
