import MyStudy.Lib.SqlString
import MyStudy.Zn.AccessDb

/-!
# Registering a request at the database server

`zn_dbserv::access_db` makes the same three checks as `zn_connection::access_db`. The third is made
with a condition of SQL that has the host of the request between quotes, as it is.
-/
namespace Zn

open SqlString (ReadsAs)

/-! ### Conditions of SQL -/

/-- The words of a condition. A quoted text is one word. -/
inductive SqlToken where
  | procStatus
  | easHost
  | eq
  | number (n : Nat)
  | text (text : Bytes)
  | or
  | and
deriving DecidableEq, Repr

/-- What a name may hold. -/
def isNameByte (c : UInt8) : Bool := isalnum c || c = '_'.toUInt8 || c = '$'.toUInt8 || 128 ≤ c

def sqlWord (word : Bytes) : Option SqlToken :=
  if word.all isDigit then some (.number (numeral 10 word))
  else if word = ascii "PROC_STATUS" then some .procStatus
  else if word = ascii "EAS_HOST" then some .easHost
  else if word = ascii "OR" then some .or
  else if word = ascii "AND" then some .and
  else none

/-- The words of a text; `none` where there is another one. -/
def sqlTokens : Nat → Bytes → Option (List SqlToken)
  | 0, _ => none
  | _ + 1, [] => some []
  | rounds + 1, c :: rest =>
    if c = blank then sqlTokens rounds rest
    else if c = '='.toUInt8 then (sqlTokens rounds rest).map (.eq :: ·)
    else if c = sqlQuote then
      match SqlString.read sqlQuote rest with
      | some (text, rest) => (sqlTokens rounds rest).map (.text text :: ·)
      | none => none
    else
      match sqlWord (c :: rest.takeWhile isNameByte) with
      | some word => (sqlTokens rounds (rest.dropWhile isNameByte)).map (word :: ·)
      | none => none

/-- What a condition says of a row. -/
abbrev RowCondition := MigrationRow → Bool

def sqlComparison : List SqlToken → Option RowCondition
  | [.procStatus, .eq, .number n] => some fun row => row.procStatus = n
  | [.easHost, .eq, .text text] => some fun row => row.easHost = text
  | [.text text, .eq, .text text'] => some fun _ => text = text'
  | _ => none

def sqlConjunction (tokens : List SqlToken) : Option RowCondition :=
  ((tokens.splitOn .and).mapM sqlComparison).map fun parts row => parts.all fun part => part row

def sqlDisjunction (tokens : List SqlToken) : Option RowCondition :=
  ((tokens.splitOn .or).mapM sqlConjunction).map fun parts row => parts.any fun part => part row

/-- The meaning of a condition, as far as it is made of comparisons. `AND` binds tighter than
`OR`. -/
def sqlCondition (text : Bytes) : Option RowCondition :=
  (sqlTokens (text.length + 1) text).bind sqlDisjunction

def exportText : Bytes := ascii "PROC_STATUS = 0 OR PROC_STATUS = 1"

/-- The third condition, with the host between quotes. -/
def connectText (easHost : Bytes) : Bytes :=
  ascii "PROC_STATUS = 0 OR PROC_STATUS = 1 AND EAS_HOST = " ++ [sqlQuote] ++ easHost ++ [sqlQuote]

theorem sqlCondition_exportText : sqlCondition exportText = some exportCondition := by
  have words : sqlTokens (exportText.length + 1) exportText =
      some [.procStatus, .eq, .number 0, .or, .procStatus, .eq, .number 1] := by decide +kernel
  rw [sqlCondition, words, Option.bind_some]
  refine congrArg some (funext fun row => ?_)
  simp [exportCondition]

/-- The words of the third condition are those of the text before the host, and what its literal
reads as. -/
theorem sqlTokens_connectText {easHost named : Bytes} (reads : ReadsAs sqlQuote easHost named) :
    sqlTokens ((connectText easHost).length + 1) (connectText easHost) =
      some [.procStatus, .eq, .number 0, .or, .procStatus, .eq, .number 1, .and, .easHost, .eq,
      .text named] := by
  have rounds : (connectText easHost).length + 1 = easHost.length + 53 := by
    simp [connectText, ascii]
  -- up to the host the text is always the same
  have front : sqlTokens (easHost.length + 53) (connectText easHost) =
      ([.procStatus, .eq, .number 0, .or, .procStatus, .eq, .number 1, .and, .easHost,
        .eq] : List SqlToken).foldr (fun word words => words.map (word :: ·))
        (match SqlString.read sqlQuote (easHost ++ [sqlQuote]) with
          | some (text, rest) => (sqlTokens (easHost.length + 32) rest).map (.text text :: ·)
          | none => none) := by
    rfl
  rw [rounds, front, reads]
  rfl

theorem sqlCondition_connectText {easHost named : Bytes} (reads : ReadsAs sqlQuote easHost named) :
    sqlCondition (connectText easHost) = some (connectCondition named) := by
  have parts : ([.procStatus, .eq, .number 0, .or, .procStatus, .eq, .number 1, .and, .easHost, .eq,
      .text named] : List SqlToken).splitOn .or =
      [[.procStatus, .eq, .number 0],
        [.procStatus, .eq, .number 1, .and, .easHost, .eq, .text named]] := by
    simp [List.splitOn_cons_eq_if_modifyHead]
  have factors : ([.procStatus, .eq, .number 1, .and, .easHost, .eq, .text named] :
    List SqlToken).splitOn
      .and = [[.procStatus, .eq, .number 1], [.easHost, .eq, .text named]] := by
    simp [List.splitOn_cons_eq_if_modifyHead]
  have alone : ([.procStatus, .eq, .number 0] : List SqlToken).splitOn .and =
      [[.procStatus, .eq, .number 0]] := by
    simp [List.splitOn_cons_eq_if_modifyHead]
  rw [sqlCondition, sqlTokens_connectText reads, Option.bind_some]
  simp only [sqlDisjunction, parts, sqlConjunction, factors, alone, sqlComparison, List.mapM_cons,
    List.mapM_nil, Option.pure_def, Option.bind_eq_bind, Option.bind_some, Option.map_some]
  refine congrArg some (funext fun row => ?_)
  simp [connectCondition]

/-- The hosts of requests that `check_request` lets through are read as themselves. -/
theorem readsAs_host (easHost : Bytes) (chars : ∀ c ∈ easHost, isHostChar c = true) :
    ReadsAs sqlQuote easHost easHost := by
  refine SqlString.readsAs_plain _ _ (fun member => ?_) fun member => ?_
  · exact absurd (chars _ member) (by decide)
  · exact absurd (chars _ member) (by decide)

/-- What the database takes the text of a condition to say of a row. Of those made of comparisons it
is their meaning. -/
structure SqlDatabase where
  selects : Bytes → RowCondition
  meaning : ∀ text condition, sqlCondition text = some condition → selects text = condition

/-! ### `zn_dbserv` -/

/-- The three limits, which the constructor reads as unsigned numbers. -/
structure DbservLimits where
  toolservTransactMax : Nat
  toolservExportMax : Nat
  mbsConnectMax : Nat
deriving DecidableEq, Repr

/-- A statement that does not succeed throws, and a catch clause returns. -/
def dbservStatement (answer : Answer) (queue : Queue) (next : Nat × Queue) : Nat × Queue :=
  match answer with
  | .ok => next
  | .dupEntry => (rcExist, queue)
  | .failed => (rcDbErr, queue)

/-- `select_count`. -/
def selectCount (db : SqlDatabase) (queue : Queue) (condition : Bytes) : Nat :=
  if condition = [] then queue.length else queue.countP (db.selects condition)

/-- `zn_dbserv::access_db`: the code it returns, and the rows. `answers` tells what the database
makes of each statement. -/
def dbservAccessDb (db : SqlDatabase) (limits : DbservLimits) (key : Nat) (loginId : Bytes)
    (nodeId : Nat) (easHost : Bytes) (answers : Nat → Answer) (queue : Queue) : Nat × Queue :=
  dbservStatement (answers 0) queue <|
    if selectCount db queue [] > limits.toolservTransactMax then (rcServBusy, queue)
    else dbservStatement (answers 1) queue <|
      if selectCount db queue exportText > limits.toolservExportMax then (rcServBusy, queue)
      else dbservStatement (answers 2) queue <|
        if selectCount db queue (connectText easHost) > limits.mbsConnectMax then (rcEasBusy, queue)
        else dbservStatement (answers 3) queue
          (0, queue.insertMigrationInformation key loginId nodeId easHost 0)

/-! ### The third check -/

/-- A row of another host that is not processed yet. -/
def waitsElsewhere (easHost : Bytes) (row : MigrationRow) : Bool :=
  row.procStatus = 0 && row.easHost ≠ easHost

/-- The third condition selects more than the rows of the host. -/
theorem countP_connectCondition (easHost : Bytes) (queue : Queue) :
    queue.countP (connectCondition easHost) =
      queue.countP (activeAt easHost) + queue.countP (waitsElsewhere easHost) := by
  induction queue with
  | nil => rfl
  | cons row queue ih =>
    have here : (if connectCondition easHost row then 1 else 0) =
        (if activeAt easHost row then 1 else 0) + if waitsElsewhere easHost row then 1 else 0 := by
      simp only [connectCondition, activeAt, exportCondition, waitsElsewhere]
      by_cases same : row.easHost = easHost
      · simp [same]
      · by_cases waits : row.procStatus = 0 <;> simp [same, waits]
    rw [List.countP_cons, List.countP_cons, List.countP_cons, ih, here]
    omega

/-- The rows of other hosts that are counted, too, do not bring the count over the limit. -/
def OthersFit (max : Nat) (easHost : Bytes) (queue : Queue) : Prop :=
  max < queue.countP (activeAt easHost) ∨
    queue.countP (activeAt easHost) + queue.countP (waitsElsewhere easHost) ≤ max

/-- The count is over the limit just when the rows of the host are, unless the others make the
difference. -/
theorem over_limit_iff (max : Nat) (easHost : Bytes) (queue : Queue) :
    (max < queue.countP (connectCondition easHost) ↔ max < queue.countP (activeAt easHost)) ↔
      OthersFit max easHost queue := by
  rw [countP_connectCondition, OthersFit]
  omega

theorem accessDb_busy (config : LimitConfig) (members : Members) (key : Nat) (queue : Queue) :
    accessDb config members key .ok queue .countConnect = some (queue, .returned rcEasBusy) ↔
      unsignedInt config.mbsConnectMax < queue.countP (connectCondition members.easHost) := by
  rw [accessDb, attempt, Queue.getRecordCount]
  split
  next exceeds => simpa using exceeds
  next fits => simpa using fits

theorem selectCount_exportText (db : SqlDatabase) (queue : Queue) :
    selectCount db queue exportText = queue.countP exportCondition := by
  rw [selectCount, if_neg (by decide), db.meaning _ _ sqlCondition_exportText]

theorem selectCount_connectText (db : SqlDatabase) {easHost named : Bytes}
    (reads : ReadsAs sqlQuote easHost named) (queue : Queue) :
    selectCount db queue (connectText easHost) = queue.countP (connectCondition named) := by
  rw [selectCount, if_neg (by simp [connectText, ascii]),
    db.meaning _ _ (sqlCondition_connectText reads)]

/-- Behind the first two checks. -/
theorem dbservAccessDb_busy (db : SqlDatabase) (limits : DbservLimits) (key : Nat) (loginId : Bytes)
    (nodeId : Nat) (easHost named : Bytes) (reads : ReadsAs sqlQuote easHost named)
    (answers : Nat → Answer) (queue : Queue) (answered : ∀ call < 3, answers call = .ok)
    (transact : queue.length ≤ limits.toolservTransactMax)
    (exports : queue.countP exportCondition ≤ limits.toolservExportMax) :
    (dbservAccessDb db limits key loginId nodeId easHost answers queue).1 = rcEasBusy ↔
      limits.mbsConnectMax < queue.countP (connectCondition named) := by
  have transact' : ¬ selectCount db queue [] > limits.toolservTransactMax := Nat.not_lt.mpr transact
  have exports' : ¬ selectCount db queue exportText > limits.toolservExportMax := by
    rw [selectCount_exportText]
    exact Nat.not_lt.mpr exports
  rw [dbservAccessDb, answered 0 (by decide), answered 1 (by decide), answered 2 (by decide),
    selectCount_connectText db reads]
  simp only [dbservStatement, if_neg transact', if_neg exports']
  split
  next exceeds => exact iff_of_true rfl exceeds
  next fits =>
    -- an INSERT has codes of its own
    refine iff_of_false ?_ fits
    cases answers 3 <;> simp

/-- A row that is being exported for a host. -/
def exportingRow (easHost : Bytes) : MigrationRow := ⟨0, ascii "user1", [], 1, easHost, exporting⟩

/-- A host that has no rows, next to one with two that wait. -/
def mixedQueue : Queue :=
  [⟨0, ascii "user1", [], 1, ascii "mbs1", notProcess⟩,
    ⟨1, ascii "user2", [], 1, ascii "mbs1", notProcess⟩,
    ⟨2, ascii "user3", [], 1, ascii "mbs1", exporting⟩]

/-- A database that knows no other conditions. -/
def comparingDatabase : SqlDatabase where
  selects text := (sqlCondition text).getD fun _ => false
  meaning := by
    intro text condition means
    rw [means, Option.getD_some]

end Zn
