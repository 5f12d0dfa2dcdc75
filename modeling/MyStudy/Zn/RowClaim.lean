import MyStudy.Zn.MainProcess
import Mathlib.Data.Fintype.Basic

/-!
# Which process exports a row

Every `main` for a login reads the row of the queue, and unless it is past NOT_PROCESS sets it to
EXPORTING some statements later. The UPDATE does not look at the status, so two processes that have
both read NOT_PROCESS both go on to the export.
-/
namespace Zn

variable {ι : Type} [DecidableEq ι]

/-- The processes for one login: the table, the number of the next row, where each process is, and
which of them has begun to export which row. -/
structure Crowd (ι : Type) where
  queue : Queue
  nextKey : Nat
  main : ι → Main
  exported : List (ι × Nat)

/-- A process goes on, or another program runs a statement. -/
inductive Turn (ι : Type) where
  | process (who : ι)
  | other (statement : Statement)

/-- The row a process has read as NOT_PROCESS and not set to EXPORTING yet. -/
def Main.pending : Main → Option MigrationRow
  | .ldap row | .nsim row | .updateZimbraId row _ | .updateExporting row _ => some row
  | _ => none

/-- The row a process goes on to export with its next statement. -/
def Main.claims : Main → Option MigrationRow
  | .updateExporting row _ => some row
  | _ => none

/-- Programs insert rows as new ones and set every status but NOT_PROCESS. -/
def Statement.ordinary (nextKey : Nat) : Statement → Bool
  | .insertRow key _ _ _ => key = nextKey
  | .setProcStatus _ procStatus => procStatus ≠ notProcess
  | _ => true

def Crowd.step (outcomes : ι → Outcomes) (loginId : Bytes) (s : Crowd ι) : Turn ι → Option (Crowd ι)
  | .process who =>
    match (s.main who).step (outcomes who) loginId s.queue with
    | none => none
    | some (queue, main, _) =>
      some ⟨queue, s.nextKey + 1, Function.update s.main who main,
        s.exported ++ ((s.main who).claims.map fun row => (who, row.key)).toList⟩
  | .other statement =>
    if statement.ordinary s.nextKey then
      some { s with queue := statement.run s.queue, nextKey := s.nextKey + 1 }
    else none

/-- All processes are about to read their row. -/
def Crowd.start (queue : Queue) (nextKey : Nat) : Crowd ι := ⟨queue, nextKey, fun _ => .select, []⟩

/-- No row is exported twice. -/
def ExportedOnce (s : Crowd ι) : Prop := (s.exported.map Prod.snd).Nodup

instance decidableExportedOnce (s : Crowd ι) : Decidable (ExportedOnce s) :=
  inferInstanceAs (Decidable (s.exported.map Prod.snd).Nodup)

/-- The row that is set to EXPORTING is still there as NOT_PROCESS. -/
def StillUnprocessed (s : Crowd ι) : Turn ι → Prop
  | .process who =>
    ∀ claimed ∈ (s.main who).claims,
      ∃ row ∈ s.queue, row.key = claimed.key ∧ row.procStatus = notProcess
  | .other _ => True

instance decidableStillUnprocessed (s : Crowd ι) : ∀ turn, Decidable (StillUnprocessed s turn)
  | .process who => inferInstanceAs (Decidable (∀ claimed ∈ (s.main who).claims,
      ∃ row ∈ s.queue, row.key = claimed.key ∧ row.procStatus = notProcess))
  | .other _ => inferInstanceAs (Decidable True)

/-- No process reads a row as NOT_PROCESS while another holds one. -/
def NoOverlap (loginId : Bytes) (s : Crowd ι) : Turn ι → Prop
  | .process who => s.main who = .select →
    ∀ row, s.queue.getMigrationInformation loginId = some row → row.procStatus = notProcess →
      ∀ other, (s.main other).pending = none
  | .other _ => True

/-- The keys of the rows tell them apart, and no later row has one of them. -/
structure Numbered (queue : Queue) (nextKey : Nat) : Prop where
  apart : ∀ row ∈ queue, ∀ row' ∈ queue, row.key = row'.key → row.loginId = row'.loginId
  below : ∀ row ∈ queue, row.key < nextKey

/-! ### What the statements leave -/

/-- A row behind an ordinary statement was there before, and if it is NOT_PROCESS it was so, or it
is the new one. -/
theorem Statement.mem_run_ordinary (queue : Queue) (nextKey : Nat) (statement : Statement)
    (ordinary : statement.ordinary nextKey = true) (row : MigrationRow)
    (member : row ∈ statement.run queue) :
    (∃ old ∈ queue, row.key = old.key ∧ row.loginId = old.loginId ∧
      (row.procStatus = notProcess → old.procStatus = notProcess)) ∨
    (row.key = nextKey ∧ statement = .insertRow row.key row.loginId row.nodeId row.easHost) := by
  rcases statement.mem_run queue row member with ⟨old, among, kept⟩ | new
  · refine .inl ⟨old, among, kept.key, kept.loginId, fun unprocessed => ?_⟩
    rcases kept.procStatus with same | ⟨loginId, set⟩
    · rw [← same, unprocessed]
    · rw [set, unprocessed] at ordinary
      cases ordinary
  · rw [new] at ordinary
    exact .inr ⟨by simpa [Statement.ordinary] using ordinary, new⟩

theorem Numbered.run {queue : Queue} {nextKey : Nat} (numbered : Numbered queue nextKey)
    (statement : Statement) (ordinary : statement.ordinary nextKey = true) :
    Numbered (statement.run queue) (nextKey + 1) := by
  have before := statement.mem_run_ordinary queue nextKey ordinary
  constructor
  · intro row member row' member' same
    rcases before row member with ⟨old, among, key, login, _⟩ | ⟨key, new⟩
    · rcases before row' member' with ⟨old', among', key', login', _⟩ | ⟨key', _⟩
      · rw [login, login']
        exact numbered.apart old among old' among' (by omega)
      · have := numbered.below old among
        omega
    · rcases before row' member' with ⟨old', among', key', _, _⟩ | ⟨key', new'⟩
      · have := numbered.below old' among'
        omega
      · rw [new] at new'
        exact (Statement.insertRow.inj new').2.1
  · intro row member
    rcases before row member with ⟨old, among, key, _, _⟩ | ⟨key, _⟩
    · have := numbered.below old among
      omega
    · omega

/-- What holds of the rows of an old key goes on to hold. -/
theorem rowsOf_run {queue : Queue} {nextKey key : Nat} {P : MigrationRow → Prop}
    (old_ : key < nextKey)
    (stable : ∀ old row, row.loginId = old.loginId →
      (row.procStatus = notProcess → old.procStatus = notProcess) → P old → P row)
    (all : ∀ row ∈ queue, row.key = key → P row) (statement : Statement)
    (ordinary : statement.ordinary nextKey = true) :
    ∀ row ∈ statement.run queue, row.key = key → P row := by
  intro row member own
  rcases statement.mem_run_ordinary queue nextKey ordinary row member with
    ⟨old, among, sameKey, login, unprocessed⟩ | ⟨new, _⟩
  · exact stable old row login unprocessed (all old among (by omega))
  · omega

/-! ### One process -/

/-- What a step does to the table and to the row the process holds: it reads a row as NOT_PROCESS,
it claims the row, or it goes on with at most one statement. -/
inductive RowStep (loginId : Bytes) (queue : Queue) : Main → Queue → Main → Prop
  | selected (row : MigrationRow) (found : queue.getMigrationInformation loginId = some row)
    (fresh : row.procStatus = notProcess) : RowStep loginId queue .select queue (.ldap row)
  | claimed (row : MigrationRow) (ldapValues : List Bytes) :
    RowStep loginId queue (.updateExporting row ldapValues)
      (queue.updateProcStatus loginId exporting) (.exports row ldapValues)
  | quiet (main main' : Main) (claims : main.claims = none)
    (pending : ∀ row, main'.pending = some row → main.pending = some row) :
    RowStep loginId queue main queue main'
  | ran (main main' : Main) (statement : Statement) (claims : main.claims = none)
    (pending : ∀ row, main'.pending = some row → main.pending = some row)
    (ordinary : ∀ nextKey, statement.ordinary nextKey = true) :
    RowStep loginId queue main (statement.run queue) main'

/-- A step that leaves the table alone and holds no row behind it. -/
theorem RowStep.settled {loginId : Bytes} {queue : Queue} {main main' : Main}
    (claims : main.claims = none) (settled : main'.pending = none) :
    RowStep loginId queue main queue main' :=
  .quiet main main' claims fun row held => by
    rw [settled] at held
    cases held

/-- A step that goes on with the row it holds. -/
theorem RowStep.holding {loginId : Bytes} {queue : Queue} {main main' : Main}
    (claims : main.claims = none) (same : main'.pending = main.pending) :
    RowStep loginId queue main queue main' :=
  .quiet main main' claims fun row held => by rwa [same] at held

theorem Main.rowStep (o : Outcomes) (loginId : Bytes) (queue queue' : Queue) (main main' : Main)
    (actions : List Action) (stepped : main.step o loginId queue = some (queue', main', actions)) :
    RowStep loginId queue main queue' main' := by
  cases main with
  | select =>
    simp only [Main.step] at stepped
    split at stepped
    · cases stepped
      exact .settled rfl rfl
    next row found =>
      split at stepped
      next fresh =>
        cases stepped
        exact .selected row found fresh
      · cases stepped
        exact .settled rfl rfl
  | ldap row =>
    simp only [Main.step] at stepped
    split at stepped <;> cases stepped
    case h_1 => exact .holding rfl rfl
    case h_2 => exact .holding rfl rfl
    all_goals exact .settled rfl rfl
  | nsim row =>
    simp only [Main.step] at stepped
    split at stepped <;> cases stepped
    case h_1 => exact .holding rfl rfl
    case h_4 =>
      -- only here does the NSIM login touch the table
      exact .ran _ _ (.setProcStatus row.loginId migrationBreakout) rfl (by simp [Main.pending])
        fun _ => rfl
    all_goals exact .settled rfl rfl
  | updateZimbraId row ldapValues =>
    cases ldapValues with
    | nil =>
      cases stepped
      exact .settled rfl rfl
    | cons zimbraId rest =>
      cases stepped
      exact .ran _ _ (.setZimbraId loginId zimbraId) rfl (fun _ held => held) fun _ => rfl
  | updateExporting row ldapValues =>
    cases stepped
    exact .claimed row ldapValues
  | exports row ldapValues =>
    cases ldapValues with
    | nil =>
      cases stepped
      exact .settled rfl rfl
    | cons zimbraId rest =>
      simp only [Main.step, useZimbraId, Option.some_inj, Prod.mk.injEq] at stepped
      obtain ⟨rfl, rfl, _⟩ := stepped
      rcases tryCalls o.exports.calls [] with ⟨outcome, set⟩
      cases outcome <;> exact .settled rfl rfl
  | updateAnalyzing row set =>
    cases stepped
    exact .ran _ _ (.setProcStatus loginId analyzing) rfl (by simp [Main.pending]) fun _ => rfl
  | filters row set =>
    simp only [Main.step, Option.some_inj, Prod.mk.injEq] at stepped
    obtain ⟨rfl, used⟩ := stepped
    rw [useFilters] at used
    split at used
    · cases used
      exact .settled rfl rfl
    split at used
    · cases used
      exact .settled rfl rfl
    cases used
    apply RowStep.settled rfl
    split <;> rfl
  | updateMigrating row =>
    cases stepped
    exact .ran _ _ (.setProcStatus loginId migrating) rfl (by simp [Main.pending]) fun _ => rfl
  | deliver row =>
    simp only [Main.step] at stepped
    split at stepped <;> cases stepped <;> exact .settled rfl rfl
  | deleteData row =>
    cases stepped
    exact .ran _ _ (.deleteRows loginId) rfl (by simp [Main.pending]) fun _ => rfl
  | returned rc => cases stepped
  | terminated => cases stepped
  | undefined => cases stepped

/-! ### All processes -/

section runs

variable (outcomes : ι → Outcomes) (loginId : Bytes)

/-- The rows that processes are about to claim belong to the login, and no exported row is
NOT_PROCESS any more. -/
structure Claims (s : Crowd ι) : Prop where
  numbered : Numbered s.queue s.nextKey
  pending : ∀ who claimed, (s.main who).pending = some claimed →
    claimed.key < s.nextKey ∧ ∀ row ∈ s.queue, row.key = claimed.key → row.loginId = loginId
  exported : ∀ key ∈ s.exported.map Prod.snd,
    key < s.nextKey ∧ ∀ row ∈ s.queue, row.key = key → row.procStatus ≠ notProcess
  once : ExportedOnce s

omit [DecidableEq ι] in
/-- A statement of any program leaves what the processes rely on. -/
theorem Claims.run {s : Crowd ι} (claims : Claims loginId s) (statement : Statement)
    (ordinary : statement.ordinary s.nextKey = true) (main : ι → Main)
    (pending : ∀ who row, (main who).pending = some row → (s.main who).pending = some row) :
    Claims loginId ⟨statement.run s.queue, s.nextKey + 1, main, s.exported⟩ := by
  constructor
  · exact claims.numbered.run statement ordinary
  · intro who claimed held
    obtain ⟨below, own⟩ := claims.pending who claimed (pending who claimed held)
    exact ⟨Nat.lt_succ_of_lt below,
      rowsOf_run below (fun old row login _ here => login.trans here) own statement ordinary⟩
  · intro key among
    obtain ⟨below, past⟩ := claims.exported key among
    exact ⟨Nat.lt_succ_of_lt below,
      rowsOf_run below (fun old row _ unprocessed here fresh => here (unprocessed fresh)) past
        statement ordinary⟩
  · exact claims.once

omit [DecidableEq ι] in
theorem Claims.quiet {s : Crowd ι} (claims : Claims loginId s) (main : ι → Main)
    (pending : ∀ who row, (main who).pending = some row → (s.main who).pending = some row) :
    Claims loginId ⟨s.queue, s.nextKey + 1, main, s.exported⟩ := by
  constructor
  · exact ⟨claims.numbered.apart,
      fun row member => Nat.lt_succ_of_lt (claims.numbered.below row member)⟩
  · intro who claimed held
    obtain ⟨below, own⟩ := claims.pending who claimed (pending who claimed held)
    exact ⟨Nat.lt_succ_of_lt below, own⟩
  · intro key among
    obtain ⟨below, past⟩ := claims.exported key among
    exact ⟨Nat.lt_succ_of_lt below, past⟩
  · exact claims.once

/-- A process that reads a row as NOT_PROCESS holds a row of its login. -/
theorem Claims.selected {s : Crowd ι} (claims : Claims loginId s) (who : ι) (row : MigrationRow)
    (found : s.queue.getMigrationInformation loginId = some row) :
    Claims loginId ⟨s.queue, s.nextKey + 1, Function.update s.main who (.ldap row),
      s.exported⟩ := by
  have same := claims.quiet loginId s.main fun _ _ held => held
  refine ⟨same.numbered, ?_, same.exported, same.once⟩
  intro other claimed held
  by_cases self : other = who
  · subst self
    obtain ⟨member, own⟩ := s.queue.getMigrationInformation_spec loginId row found
    simp only [Function.update_self, Main.pending, Option.some_inj] at held
    subst held
    exact ⟨Nat.lt_succ_of_lt (claims.numbered.below row member),
      fun row' member' key => (claims.numbered.apart row' member' row member key).trans own⟩
  · simp only [Function.update_of_ne self] at held
    exact same.pending other claimed held

/-- A process claims a row that is still NOT_PROCESS, so no process has claimed it before. -/
theorem Claims.claimed {s : Crowd ι} (claims : Claims loginId s) (who : ι) (row : MigrationRow)
    (ldapValues : List Bytes) (here : s.main who = .updateExporting row ldapValues)
    (fresh : row.key ∉ s.exported.map Prod.snd) :
    Claims loginId ⟨s.queue.updateProcStatus loginId exporting, s.nextKey + 1,
      Function.update s.main who (.exports row ldapValues), s.exported ++ [(who, row.key)]⟩ := by
  have same := claims.run loginId (.setProcStatus loginId exporting) rfl
    (Function.update s.main who (.exports row ldapValues)) (by
      intro other claimed held
      by_cases self : other = who
      · subst self
        simp [Main.pending] at held
      · simpa [Function.update_of_ne self] using held)
  obtain ⟨below, own⟩ := claims.pending who row (by rw [here]; rfl)
  refine ⟨same.numbered, same.pending, ?_, ?_⟩
  · intro key among
    rw [List.map_append, List.mem_append] at among
    rcases among with before | new
    · exact same.exported key before
    · obtain rfl : key = row.key := by simpa using new
      refine ⟨Nat.lt_succ_of_lt below, fun row' member key unprocessed => ?_⟩
      -- all rows of the login are EXPORTING now
      obtain ⟨old, among, rfl⟩ := s.queue.mem_updateLogin _ _ _ member
      split at key
      next mine =>
        rw [if_pos mine] at unprocessed
        cases unprocessed
      next foreign => exact foreign (own old among key)
  · rw [ExportedOnce, List.map_append]
    exact List.nodup_append'.mpr ⟨claims.once, by simp, by simpa using fresh⟩

/-- The row a step claims has not been claimed before. -/
def Unclaimed (s : Crowd ι) : Turn ι → Prop
  | .process who => ∀ row, (s.main who).claims = some row → row.key ∉ s.exported.map Prod.snd
  | .other _ => True

omit loginId in
/-- If a process holds no new row, no process does. -/
theorem pending_update (s : Crowd ι) (who : ι) (main : Main)
    (pending : ∀ row, main.pending = some row → (s.main who).pending = some row) (other : ι)
    (row : MigrationRow) (held : (Function.update s.main who main other).pending = some row) :
    (s.main other).pending = some row := by
  by_cases self : other = who
  · subst self
    rw [Function.update_self] at held
    exact pending row held
  · rwa [Function.update_of_ne self] at held

theorem claims_step (s : Crowd ι) (turn : Turn ι) (t : Crowd ι) (claims : Claims loginId s)
    (unclaimed : Unclaimed s turn) (stepped : s.step outcomes loginId turn = some t) :
    Claims loginId t := by
  cases turn with
  | other statement =>
    simp only [Crowd.step] at stepped
    split at stepped
    next ordinary =>
      obtain rfl := Option.some.inj stepped
      exact claims.run loginId statement ordinary s.main fun _ _ held => held
    · cases stepped
  | process who =>
    simp only [Crowd.step] at stepped
    split at stepped
    · cases stepped
    next queue main actions moved =>
      obtain rfl := Option.some.inj stepped
      have step := Main.rowStep _ _ _ _ _ _ _ moved
      rw [Unclaimed] at unclaimed
      have holds := pending_update s who main
      generalize here : s.main who = before at step unclaimed holds
      cases step with
      | selected row found fresh =>
        simpa [Main.claims] using claims.selected loginId who row found
      -- the row is claimed by this process, and by no other one
      | claimed row ldapValues =>
        exact claims.claimed loginId who row ldapValues here (unclaimed row rfl)
      | quiet main main' none_ pending =>
        simpa [none_] using claims.quiet loginId _ (holds pending)
      | ran main main' statement none_ pending ordinary =>
        simpa [none_] using claims.run loginId statement (ordinary _) _ (holds pending)

omit [DecidableEq ι] in
theorem unclaimed_of_still (s : Crowd ι) (turn : Turn ι) (claims : Claims loginId s)
    (still : StillUnprocessed s turn) : Unclaimed s turn := by
  cases turn with
  | other statement => trivial
  | process who =>
    intro row claimed among
    obtain ⟨row', member, key, unprocessed⟩ := still row claimed
    exact (claims.exported row.key among).2 row' member key unprocessed

/-- One process at a time holds a row, and nobody has exported that row. -/
structure OneAtATime (s : Crowd ι) : Prop where
  claims : Claims loginId s
  single : ∀ who other row row', (s.main who).pending = some row →
    (s.main other).pending = some row' → who = other
  fresh : ∀ who row, (s.main who).pending = some row → row.key ∉ s.exported.map Prod.snd

omit [DecidableEq ι] in
theorem OneAtATime.unclaimed {s : Crowd ι} (one : OneAtATime loginId s) (turn : Turn ι) :
    Unclaimed s turn := by
  cases turn with
  | other statement => trivial
  | process who =>
    intro row claimed
    apply one.fresh who row
    generalize s.main who = main at claimed ⊢
    cases main <;> first | exact claimed | cases claimed

omit [DecidableEq ι] in
/-- A step that gives no process a row to hold and exports none leaves one at a time. -/
theorem OneAtATime.kept {s t : Crowd ι} (one : OneAtATime loginId s) (claims : Claims loginId t)
    (pending : ∀ who row, (t.main who).pending = some row → (s.main who).pending = some row)
    (exported : t.exported = s.exported) : OneAtATime loginId t where
  claims := claims
  single who other row row' held held' :=
    one.single who other row row' (pending who row held) (pending other row' held')
  fresh who row held := by
    rw [exported]
    exact one.fresh who row (pending who row held)

/-- A process that reads a row when nobody holds one is the only one to hold a row, and as this one
is NOT_PROCESS nobody has exported it. -/
theorem OneAtATime.selected {s : Crowd ι} (one : OneAtATime loginId s) (who : ι)
    (row : MigrationRow) (found : s.queue.getMigrationInformation loginId = some row)
    (fresh : row.procStatus = notProcess) (nobody : ∀ other, (s.main other).pending = none) :
    OneAtATime loginId
      ⟨s.queue, s.nextKey + 1, Function.update s.main who (.ldap row), s.exported⟩ := by
  have only (other : ι) (row' : MigrationRow)
      (held : (Function.update s.main who (.ldap row) other).pending = some row') :
      other = who ∧ row' = row := by
    by_cases self : other = who
    · subst self
      rw [Function.update_self] at held
      exact ⟨rfl, (Option.some.inj held).symm⟩
    · rw [Function.update_of_ne self, nobody other] at held
      cases held
  refine ⟨one.claims.selected loginId who row found, ?_, ?_⟩
  · intro other other' row' row'' held held'
    rw [(only other row' held).1, (only other' row'' held').1]
  · intro other row' held among
    obtain ⟨_, rfl⟩ := only other row' held
    obtain ⟨member, _⟩ := s.queue.getMigrationInformation_spec loginId row' found
    exact (one.claims.exported row'.key among).2 row' member rfl fresh

/-- The process that exports a row gives up the only row that is held. -/
theorem OneAtATime.claimed {s t : Crowd ι} (one : OneAtATime loginId s)
    (claims : Claims loginId t) (who : ι) (row : MigrationRow) (ldapValues : List Bytes)
    (here : s.main who = .updateExporting row ldapValues)
    (main : t.main = Function.update s.main who (.exports row ldapValues)) :
    OneAtATime loginId t := by
  have nobody (other : ι) (row' : MigrationRow) (held : (t.main other).pending = some row') :
      False := by
    rw [main] at held
    by_cases self : other = who
    · subst self
      simp [Main.pending] at held
    · rw [Function.update_of_ne self] at held
      exact self (one.single other who row' row held (by rw [here]; rfl))
  exact ⟨claims, fun other _ row' _ held _ => (nobody other row' held).elim,
    fun other row' held => (nobody other row' held).elim⟩

theorem oneAtATime_step (s : Crowd ι) (turn : Turn ι) (t : Crowd ι) (one : OneAtATime loginId s)
    (apart : NoOverlap loginId s turn) (stepped : s.step outcomes loginId turn = some t) :
    OneAtATime loginId t := by
  have claims :=
    claims_step outcomes loginId s turn t one.claims (one.unclaimed loginId turn) stepped
  cases turn with
  | other statement =>
    simp only [Crowd.step] at stepped
    split at stepped
    · obtain rfl := Option.some.inj stepped
      exact one.kept loginId claims (fun _ _ held => held) rfl
    · cases stepped
  | process who =>
    simp only [Crowd.step] at stepped
    split at stepped
    · cases stepped
    next queue main actions moved =>
      obtain rfl := Option.some.inj stepped
      have step := Main.rowStep _ _ _ _ _ _ _ moved
      have holds := pending_update s who main
      rw [NoOverlap] at apart
      generalize here : s.main who = before at step apart holds claims
      cases step with
      -- the others are not in it when a process selects the row
      | selected row found fresh =>
        simpa [Main.claims] using one.selected loginId who row found fresh
          (apart rfl row found fresh)
      | claimed row ldapValues => exact one.claimed loginId claims who row ldapValues here rfl
      | quiet main main' none_ pending =>
        exact one.kept loginId claims (holds pending) (by simp [none_])
      | ran main main' statement none_ pending ordinary =>
        exact one.kept loginId claims (holds pending) (by simp [none_])

omit [DecidableEq ι] in
theorem claims_start (queue : Queue) (nextKey : Nat) (numbered : Numbered queue nextKey) :
    Claims loginId (Crowd.start queue nextKey : Crowd ι) :=
  ⟨numbered, nofun, nofun, List.nodup_nil⟩

/-- No row is exported twice in a run whose EXPORTING updates all find the row as it was read. Nor
is one in a run whose processes read NOT_PROCESS one at a time. -/
theorem exportedOnce (queue : Queue) (nextKey : Nat) (numbered : Numbered queue nextKey)
    (turns : List (Turn ι)) :
    (Transition.EachStep (Crowd.step outcomes loginId) StillUnprocessed (Crowd.start queue nextKey)
        turns →
      Transition.Throughout (Crowd.step outcomes loginId) ExportedOnce (Crowd.start queue nextKey)
        turns) ∧
    (Transition.EachStep (Crowd.step outcomes loginId) (NoOverlap loginId)
      (Crowd.start queue nextKey)
        turns →
      Transition.Throughout (Crowd.step outcomes loginId) ExportedOnce (Crowd.start queue nextKey)
        turns) := by
  constructor
  · apply Transition.throughout_of_invariant (I := Claims loginId)
    · exact fun s turn t claims still =>
        claims_step outcomes loginId s turn t claims
          (unclaimed_of_still loginId s turn claims still)
    · exact fun s claims => claims.once
    · exact claims_start loginId queue nextKey numbered
  · apply Transition.throughout_of_invariant (I := OneAtATime loginId)
    · exact oneAtATime_step outcomes loginId
    · exact fun s one => one.claims.once
    · exact ⟨claims_start loginId queue nextKey numbered, nofun, nofun⟩

end runs

/-- Both processes read the row before either of them sets it to EXPORTING. -/
def overlapping : List (Turn Bool) :=
  [.process false, .process true, .process false, .process true, .process false, .process true,
    .process false, .process true]

def smooth : Outcomes :=
  ⟨true, fun _ => .entry fun _ => some (ascii "id"), .ok,
    ⟨.ok, .ok, .ok, .ok, .ok, .ok, .ok⟩, .ok, .ok⟩

theorem exportedOnce_in_turn :
    Transition.Throughout (Crowd.step (fun _ : Bool => smooth) (ascii "user1")) ExportedOnce
      (Crowd.start [⟨0, ascii "user1", [], 1, ascii "mbs1", notProcess⟩] 1)
      [.process false, .process false, .process false, .process false, .process true] :=
  (exportedOnce (fun _ : Bool => smooth) (ascii "user1")
    [⟨0, ascii "user1", [], 1, ascii "mbs1", notProcess⟩] 1
    ⟨by simp, by simp⟩ _).1 (by decide +kernel)

theorem exported_twice :
    ¬ ∀ (outcomes : Bool → Outcomes) (loginId : Bytes) (queue : Queue) (nextKey : Nat),
      Numbered queue nextKey → ∀ turns,
        Transition.Throughout (Crowd.step outcomes loginId) ExportedOnce (Crowd.start queue nextKey)
          turns := by
  intro claim
  have all := claim (fun _ => smooth) (ascii "user1")
    [⟨0, ascii "user1", [], 1, ascii "mbs1", notProcess⟩] 1 ⟨by simp, by simp⟩ overlapping
  exact absurd all (by decide +kernel)

end Zn
