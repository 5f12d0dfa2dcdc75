import MyStudy.Lib.Bytes

/-!
# The migration queue

The rows of the queue table and the SQL statements of `zn_migration_queue` on them, each of which
the database carries out as a whole. A row keeps the columns the callers use; `key` is no column
but tells which INSERT put the row there.
-/
namespace Zn

abbrev notProcess : Nat := 0
abbrev exporting : Nat := 1
abbrev analyzing : Nat := 2
abbrev migrating : Nat := 3
abbrev migrationBreakout : Nat := 4

/-- What stands around a text in a statement. The text is put there as it is; the logins and hosts
of requests, which hold no quotes and backslashes, are read as themselves. -/
abbrev sqlQuote : UInt8 := '"'.toUInt8

structure MigrationRow where
  key : Nat
  loginId : Bytes
  zimbraId : Bytes
  nodeId : Nat
  easHost : Bytes
  procStatus : Nat
deriving DecidableEq, Repr

abbrev Queue := List MigrationRow

namespace Queue

/-- `insert_migration_information`. The statement has `NOT_PROCESS` in place of the last
argument. -/
def insertMigrationInformation (queue : Queue) (key : Nat) (loginId : Bytes) (nodeId : Nat)
    (easHost : Bytes) (_procStatus : Nat) : Queue :=
  queue ++ [⟨key, loginId, [], nodeId, easHost, notProcess⟩]

/-- `get_migration_information` with its default flag: the row of the login, `none` where it throws
because there is not exactly one. -/
def getMigrationInformation (queue : Queue) (loginId : Bytes) : Option MigrationRow :=
  match queue.filter fun row => row.loginId = loginId with
  | [row] => some row
  | _ => none

/-- An `UPDATE` of the rows of a login. -/
def updateLogin (queue : Queue) (loginId : Bytes) (set : MigrationRow → MigrationRow) : Queue :=
  queue.map fun row => if row.loginId = loginId then set row else row

def updateZimbraId (queue : Queue) (loginId zimbraId : Bytes) : Queue :=
  queue.updateLogin loginId fun row => { row with zimbraId := zimbraId }

def updateProcStatus (queue : Queue) (loginId : Bytes) (procStatus : Nat) : Queue :=
  queue.updateLogin loginId fun row => { row with procStatus := procStatus }

def deleteData (queue : Queue) (loginId : Bytes) : Queue :=
  queue.filter fun row => row.loginId ≠ loginId

/-- `get_record_count`, with the condition as what it says of a row. -/
def getRecordCount (queue : Queue) (condition : MigrationRow → Bool) : Nat := queue.countP condition

end Queue

/-- The statements that change the table. -/
inductive Statement where
  | insertRow (key : Nat) (loginId : Bytes) (nodeId : Nat) (easHost : Bytes)
  | setZimbraId (loginId zimbraId : Bytes)
  | setProcStatus (loginId : Bytes) (procStatus : Nat)
  | deleteRows (loginId : Bytes)
deriving DecidableEq, Repr

def Statement.run (queue : Queue) : Statement → Queue
  | .insertRow key loginId nodeId easHost =>
    queue.insertMigrationInformation key loginId nodeId easHost notProcess
  | .setZimbraId loginId zimbraId => queue.updateZimbraId loginId zimbraId
  | .setProcStatus loginId procStatus => queue.updateProcStatus loginId procStatus
  | .deleteRows loginId => queue.deleteData loginId

/-! ### What the statements leave -/

theorem Queue.mem_updateLogin (queue : Queue) (loginId : Bytes) (set : MigrationRow → MigrationRow)
    (row : MigrationRow) (member : row ∈ queue.updateLogin loginId set) :
    ∃ old ∈ queue, row = if old.loginId = loginId then set old else old := by
  obtain ⟨old, among, rfl⟩ := List.mem_map.mp member
  exact ⟨old, among, rfl⟩

theorem Queue.getMigrationInformation_spec (queue : Queue) (loginId : Bytes) (row : MigrationRow)
    (found : queue.getMigrationInformation loginId = some row) :
    row ∈ queue ∧ row.loginId = loginId := by
  rw [getMigrationInformation] at found
  split at found
  next only one =>
    obtain rfl := Option.some.inj found
    have member : only ∈ queue.filter fun row => row.loginId = loginId := by simp [one]
    simpa using List.mem_filter.mp member
  · cases found

/-- What a statement can have done to a row: it keeps its key, login, node and host. -/
structure Kept (statement : Statement) (old row : MigrationRow) : Prop where
  key : row.key = old.key
  loginId : row.loginId = old.loginId
  nodeId : row.nodeId = old.nodeId
  easHost : row.easHost = old.easHost
  procStatus : row.procStatus = old.procStatus ∨
    ∃ loginId, statement = .setProcStatus loginId row.procStatus

/-- A row behind a statement was there before it, or it is the new row of an INSERT. -/
theorem Statement.mem_run (queue : Queue) (statement : Statement) (row : MigrationRow)
    (member : row ∈ statement.run queue) :
    (∃ old ∈ queue, Kept statement old row) ∨
      statement = .insertRow row.key row.loginId row.nodeId row.easHost := by
  cases statement with
  | insertRow key loginId nodeId easHost =>
    rcases List.mem_append.mp member with before | new
    · exact .inl ⟨row, before, rfl, rfl, rfl, rfl, .inl rfl⟩
    · rw [List.mem_singleton.mp new]
      exact .inr rfl
  | setZimbraId loginId zimbraId =>
    obtain ⟨old, among, rfl⟩ := queue.mem_updateLogin _ _ _ member
    refine .inl ⟨old, among, ?_⟩
    split <;> exact ⟨rfl, rfl, rfl, rfl, .inl rfl⟩
  | setProcStatus loginId procStatus =>
    obtain ⟨old, among, rfl⟩ := queue.mem_updateLogin _ _ _ member
    refine .inl ⟨old, among, ?_⟩
    split
    · exact ⟨rfl, rfl, rfl, rfl, .inr ⟨loginId, rfl⟩⟩
    · exact ⟨rfl, rfl, rfl, rfl, .inl rfl⟩
  | deleteRows loginId =>
    exact .inl ⟨row, List.mem_of_mem_filter member, rfl, rfl, rfl, rfl, .inl rfl⟩

end Zn
