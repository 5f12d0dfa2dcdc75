import MyStudy.Lib.SqlString
import MyStudy.Zn.MigrationQueue

/-!
# The counters of the migration queue

A row with all its columns, and the three statements that count up. They are made from one text,
which names the column that it reads but not the one that it sets, and puts the login between quotes
as it is.
-/
namespace Zn

open SqlString (ReadsAs EndsEarly)

/-- The columns that `_increment_count` is called with. -/
inductive CountColumn where
  | imapRetryCount
  | imapSkipCount
  | restartCount
deriving DecidableEq, Repr

/-- A row, with the columns that a migration only counts in or looks at. -/
structure CountedRow extends MigrationRow where
  imapStatus : Nat
  imapRetryCount : Nat
  imapSkipCount : Nat
  restartCount : Nat
  insertTime : Bytes
  updateTime : Bytes
deriving DecidableEq, Repr

def CountedRow.value (row : CountedRow) : CountColumn → Nat
  | .imapRetryCount => row.imapRetryCount
  | .imapSkipCount => row.imapSkipCount
  | .restartCount => row.restartCount

abbrev CountedQueue := List CountedRow

def CountColumn.name : CountColumn → Bytes
  | .imapRetryCount => ascii "IMAP_RETRY_COUNT"
  | .imapSkipCount => ascii "IMAP_SKIP_COUNT"
  | .restartCount => ascii "RESTART_COUNT"

/-- The text of `_increment_count` up to the opening quote. -/
def incrementHead (table columnName : Bytes) : Bytes :=
  ascii "UPDATE " ++ table ++ ascii " SET IMAP_RETRY_COUNT = " ++ columnName ++ ascii " + 1" ++
    ascii " WHERE LOGIN_ID = " ++ [sqlQuote]

def incrementSql (table columnName loginId : Bytes) : Bytes :=
  incrementHead table columnName ++ loginId ++ [sqlQuote]

/-- `SET IMAP_RETRY_COUNT = ` the column `+ 1`. -/
def CountedRow.increment (row : CountedRow) (column : CountColumn) : CountedRow :=
  { row with imapRetryCount := row.value column + 1 }

/-- What the database makes of the table with a statement. An `UPDATE` changes the rows of the login
that its literal stands for, and none where the literal is not closed. -/
structure CountDatabase where
  table : Bytes
  execute : Bytes → CountedQueue → CountedQueue
  update : ∀ (column : CountColumn) (loginId named : Bytes) (queue : CountedQueue),
    ReadsAs sqlQuote loginId named →
      execute (incrementSql table column.name loginId) queue =
        queue.map fun row => if row.loginId = named then row.increment column else row
  unclosed : ∀ (column : CountColumn) (loginId : Bytes) (queue : CountedQueue),
    SqlString.read sqlQuote (loginId ++ [sqlQuote]) = none →
      execute (incrementSql table column.name loginId) queue = queue

namespace CountedQueue

variable (db : CountDatabase)

def incrementCount (queue : CountedQueue) (columnName : CountColumn) (loginId : Bytes) :
    CountedQueue :=
  db.execute (incrementSql db.table columnName.name loginId) queue

def incrementRetryCount (queue : CountedQueue) (loginId : Bytes) : CountedQueue :=
  queue.incrementCount db .imapRetryCount loginId

def incrementSkipCount (queue : CountedQueue) (loginId : Bytes) : CountedQueue :=
  queue.incrementCount db .imapSkipCount loginId

def incrementRestartCount (queue : CountedQueue) (loginId : Bytes) : CountedQueue :=
  queue.incrementCount db .restartCount loginId

end CountedQueue

/-! ### Sequences of calls -/

/-- One of the three operations. -/
inductive Increment where
  | retry
  | skip
  | restart
deriving DecidableEq, Repr

def Increment.run (db : CountDatabase) (loginId : Bytes) (queue : CountedQueue) :
    Increment → CountedQueue
  | .retry => queue.incrementRetryCount db loginId
  | .skip => queue.incrementSkipCount db loginId
  | .restart => queue.incrementRestartCount db loginId

def runIncrements (db : CountDatabase) (loginId : Bytes) (queue : CountedQueue)
    (calls : List Increment) : CountedQueue := calls.foldl (Increment.run db loginId) queue

/-- The row in which each counter has grown by the calls that are meant for it. -/
def CountedRow.grown (row : CountedRow) (calls : List Increment) : CountedRow :=
  { row with
    imapRetryCount := row.imapRetryCount + calls.count .retry
    imapSkipCount := row.imapSkipCount + calls.count .skip
    restartCount := row.restartCount + calls.count .restart }

/-- The rows of the login have grown, and nothing else has changed. -/
def CountedQueue.grown (queue : CountedQueue) (loginId : Bytes) (calls : List Increment) :
    CountedQueue :=
  queue.map fun row => if row.loginId = loginId then row.grown calls else row

/-- The column that the text of an operation reads. -/
def Increment.column : Increment → CountColumn
  | .retry => .imapRetryCount
  | .skip => .imapSkipCount
  | .restart => .restartCount

section Calls

variable (db : CountDatabase) (loginId : Bytes)

theorem Increment.run_eq (queue : CountedQueue) (call : Increment) :
    call.run db loginId queue =
      db.execute (incrementSql db.table call.column.name loginId) queue := by
  cases call <;> rfl

/-- What the calls make of a row. -/
def CountedRow.increments (row : CountedRow) (calls : List Increment) : CountedRow :=
  calls.foldl (fun row call => row.increment call.column) row

/-- A sequence of calls works on each row of the login that the literal stands for. -/
theorem runIncrements_eq {named : Bytes} (reads : ReadsAs sqlQuote loginId named)
    (queue : CountedQueue) (calls : List Increment) : runIncrements db loginId queue calls =
      queue.map fun row => if row.loginId = named then row.increments calls else row := by
  induction calls generalizing queue with
  | nil => simp [runIncrements, CountedRow.increments]
  | cons call calls ih =>
    rw [runIncrements, List.foldl_cons, ← runIncrements, ih, Increment.run_eq,
      db.update _ _ _ _ reads, List.map_map]
    refine List.map_congr_left fun row _ => ?_
    rw [Function.comp_apply]
    by_cases same : row.loginId = named
    · have still : (row.increment call.column).loginId = named := same
      rw [if_pos same, if_pos still, if_pos same]
      rfl
    · rw [if_neg same, if_neg same, if_neg same]

theorem runIncrements_unclosed (unclosed : SqlString.read sqlQuote (loginId ++ [sqlQuote]) = none)
    (queue : CountedQueue) (calls : List Increment) :
    runIncrements db loginId queue calls = queue := by
  induction calls with
  | nil => rfl
  | cons call calls ih => rw [runIncrements, List.foldl_cons, Increment.run_eq,
                            db.unclosed _ _ _ unclosed, ← runIncrements, ih]

end Calls

/-- No call sets the other two counters. -/
theorem increments_others (row : CountedRow) (calls : List Increment) :
    (row.increments calls).imapSkipCount = row.imapSkipCount ∧
      (row.increments calls).restartCount = row.restartCount := by
  induction calls generalizing row with
  | nil => exact ⟨rfl, rfl⟩
  | cons call calls ih => exact ih (row.increment call.column)

/-- Calls that are all meant for the counter of retries. -/
theorem increments_retry (row : CountedRow) (calls : List Increment)
    (only : ∀ call ∈ calls, call = .retry) :
    row.increments calls = row.grown calls := by
  induction calls generalizing row with
  | nil => rfl
  | cons call calls ih =>
    obtain ⟨rfl, later⟩ := List.forall_mem_cons.mp only
    rw [CountedRow.increments, List.foldl_cons, ← CountedRow.increments, ih _ later]
    simp [CountedRow.grown, CountedRow.increment, CountedRow.value, Increment.column, Nat.add_assoc,
      Nat.add_comm 1]

/-- A row that has kept the counters of skips and restarts has grown by calls for retries. -/
theorem grown_kept {row row' : CountedRow} {calls : List Increment}
    (grown : row' = row.grown calls) (skips : row'.imapSkipCount = row.imapSkipCount)
    (restarts : row'.restartCount = row.restartCount) :
    ∀ call ∈ calls, call = .retry := by
  rw [grown] at skips restarts
  have noSkip : calls.count .skip = 0 := Nat.add_eq_left.mp skips
  have noRestart : calls.count .restart = 0 := Nat.add_eq_left.mp restarts
  intro call among
  cases call with
  | retry => rfl
  | skip => exact absurd among (List.count_eq_zero.mp noSkip)
  | restart => exact absurd among (List.count_eq_zero.mp noRestart)

/-- A row that has not grown was not called for. -/
theorem grown_self {row : CountedRow} {calls : List Increment} (same : row = row.grown calls) :
    calls = [] := by
  have only := grown_kept same rfl rfl
  have retries := congrArg CountedRow.imapRetryCount same
  have none_ : calls.count .retry = 0 := Nat.add_eq_left.mp retries.symm
  refine List.eq_nil_iff_forall_not_mem.mpr fun call among => ?_
  obtain rfl := only call among
  exact List.count_eq_zero.mp none_ among

/-- Each counter of the row grows by the calls of its own operation, and nothing else changes, if
only the operation for retries is called, for a login that its literal stands for. Where the literal
ends with the statement, or not at all, it does so only then. -/
theorem runIncrements_grown_iff (db : CountDatabase) (queue : CountedQueue) (loginId : Bytes)
    (present : ∃ row ∈ queue, row.loginId = loginId) (calls : List Increment) :
    (calls = [] ∨ (ReadsAs sqlQuote loginId loginId ∧ ∀ call ∈ calls, call = .retry) →
        runIncrements db loginId queue calls = queue.grown loginId calls) ∧
      (¬ EndsEarly sqlQuote loginId →
        runIncrements db loginId queue calls = queue.grown loginId calls →
          calls = [] ∨ (ReadsAs sqlQuote loginId loginId ∧ ∀ call ∈ calls, call = .retry)) := by
  constructor
  · rintro (rfl | ⟨reads, only⟩)
    · rw [CountedQueue.grown]
      simp [runIncrements, CountedRow.grown]
    · rw [runIncrements_eq db loginId reads, CountedQueue.grown]
      exact List.map_congr_left fun row _ => by rw [increments_retry row calls only]
  · intro ends grown
    obtain ⟨row, member, same⟩ := present
    cases read : SqlString.read sqlQuote (loginId ++ [sqlQuote]) with
    | none =>
      -- the statement fails, and the row stays as it is
      rw [runIncrements_unclosed db loginId read, CountedQueue.grown] at grown
      have here := List.map_inj_left.mp ((List.map_id queue).trans grown) row member
      rw [if_pos same] at here
      exact .inl (grown_self here)
    | some literal =>
      obtain ⟨named, rest⟩ := literal
      cases rest with
      | cons c rest => exact absurd ⟨named, c, rest, read⟩ ends
      | nil =>
        have reads : ReadsAs sqlQuote loginId named := read
        rw [runIncrements_eq db loginId reads, CountedQueue.grown] at grown
        have here := List.map_inj_left.mp grown row member
        rw [if_pos same] at here
        by_cases own : loginId = named
        · rw [if_pos (same.trans own)] at here
          have kept := increments_others row calls
          exact .inr ⟨own ▸ reads, grown_kept here kept.1 kept.2⟩
        · -- the statement is for another login
          rw [if_neg (same.trans_ne own)] at here
          exact .inl (grown_self here)

/-- A database that takes the three statements, and no others. -/
def countDatabase : CountDatabase where
  table := ascii "migration"
  execute sql queue :=
    match [CountColumn.imapRetryCount, .imapSkipCount, .restartCount].find? fun column =>
        (incrementHead (ascii "migration") column.name).isPrefixOf sql with
    | none => queue
    | some column =>
      match SqlString.read sqlQuote
          (sql.drop (incrementHead (ascii "migration") column.name).length) with
      | some (named, []) =>
        queue.map fun row => if row.loginId = named then row.increment column else row
      | _ => queue
  update := by
    intro column loginId named queue reads
    have found : [CountColumn.imapRetryCount, .imapSkipCount, .restartCount].find? (fun column' =>
        (incrementHead (ascii "migration") column'.name).isPrefixOf
          (incrementSql (ascii "migration") column.name loginId)) = some column := by
      cases column <;> rfl
    rw [found]
    simp only [incrementSql, List.append_assoc, List.drop_left]
    rw [reads]
  unclosed := by
    intro column loginId queue unclosed
    have found : [CountColumn.imapRetryCount, .imapSkipCount, .restartCount].find? (fun column' =>
        (incrementHead (ascii "migration") column'.name).isPrefixOf
          (incrementSql (ascii "migration") column.name loginId)) = some column := by
      cases column <;> rfl
    rw [found]
    simp only [incrementSql, List.append_assoc, List.drop_left]
    rw [unclosed]

/-- A row that is migrated for the third time. -/
def thirdTryRow : CountedRow :=
  ⟨⟨0, ascii "user1", [], 1, ascii "mbs1", exporting⟩, 0, 2, 5, 1, [], []⟩

theorem runIncrements_grown_retries :
    runIncrements countDatabase (ascii "user1") [thirdTryRow] [.retry, .retry] =
      CountedQueue.grown [thirdTryRow] (ascii "user1") [.retry, .retry] :=
  (runIncrements_grown_iff countDatabase [thirdTryRow] (ascii "user1")
    ⟨thirdTryRow, by simp, rfl⟩ _).1
    (.inr ⟨SqlString.readsAs_plain _ _ (by decide) (by decide), by decide⟩)

/-- A skip sets the number of retries to one more than that of skips. -/
theorem skip_sets_retries :
    runIncrements countDatabase (ascii "user1") [thirdTryRow] [.skip] ≠
      CountedQueue.grown [thirdTryRow] (ascii "user1") [.skip] := by
  decide +kernel

end Zn
