import MyStudy.Lib.Transition
import MyStudy.Zn.CheckRequest
import MyStudy.Zn.MigrationQueue
import MyStudy.Zn.Untar
import Mathlib.Data.Fintype.Basic

/-!
# Registering a request

`zn_connection::access_db` counts rows in three statements and inserts a row in a fourth. The server
forks for each connection, so any number of handlers are between two statements at a time.
-/
namespace Zn

abbrev rcExist : Nat := 202
abbrev rcServBusy : Nat := 501
abbrev rcEasBusy : Nat := 502
abbrev rcDbErr : Nat := 521

/-- `from_string<unsigned int>` of a text that is not blank. -/
def fromStringUnsigned (text : Bytes) : Nat := extractUnsigned text

/-- What `get_long` gives for the three limits. -/
structure LimitConfig where
  toolservTransactMax : Int
  toolservExportMax : Int
  mbsConnectMax : Int
deriving DecidableEq, Repr

/-- `PROC_STATUS = 0 OR PROC_STATUS = 1`. -/
def exportCondition (row : MigrationRow) : Bool := row.procStatus = 0 || row.procStatus = 1

/-- `PROC_STATUS = 0 OR PROC_STATUS = 1 AND EAS_HOST = …`, where `AND` binds tighter. -/
def connectCondition (easHost : Bytes) (row : MigrationRow) : Bool :=
  row.procStatus = 0 || row.procStatus = 1 && row.easHost = easHost

/-- What the database makes of a statement. -/
inductive Answer where
  | ok
  | dupEntry
  | failed
deriving DecidableEq, Repr

/-- What `access_db` does next. -/
inductive Access where
  | init
  | countTransact
  | countExport
  | countConnect
  | insert
  | returned (rc : Nat)
deriving DecidableEq, Repr

/-- A statement that does not succeed throws, and a catch clause returns. -/
def attempt (answer : Answer) (queue : Queue) (next : Queue × Access) : Queue × Access :=
  match answer with
  | .ok => next
  | .dupEntry => (queue, .returned rcExist)
  | .failed => (queue, .returned rcDbErr)

/-- One step of `access_db`: the rows and the point after it. -/
def accessDb (config : LimitConfig) (members : Members) (key : Nat) (answer : Answer)
    (queue : Queue) : Access → Option (Queue × Access)
  | .init => some (attempt answer queue (queue, .countTransact))
  | .countTransact => some <| attempt answer queue <|
    if queue.getRecordCount (fun _ => true) > unsignedInt config.toolservTransactMax then
      (queue, .returned rcServBusy)
    else (queue, .countExport)
  | .countExport => some <| attempt answer queue <|
    if queue.getRecordCount exportCondition > unsignedInt config.toolservExportMax then
      (queue, .returned rcServBusy)
    else (queue, .countConnect)
  | .countConnect => some <| attempt answer queue <|
    if queue.getRecordCount (connectCondition members.easHost) >
      unsignedInt config.mbsConnectMax then
      (queue, .returned rcEasBusy)
    else (queue, .insert)
  | .insert => some <| attempt answer queue
      (queue.insertMigrationInformation key members.loginId (fromStringUnsigned members.nodeId)
        members.easHost 0, .returned 0)
  | .returned _ => none

/-- What a step of `access_db` can do. -/
inductive AccessStep (config : LimitConfig) (members : Members) (key : Nat) (answer : Answer)
    (queue : Queue) : Access → Queue → Access → Prop
  | gaveUp (point : Access) (rc : Nat) (notAdded : point = .insert → answer ≠ .ok) :
    AccessStep config members key answer queue point queue (.returned rc)
  | connected : AccessStep config members key answer queue .init queue .countTransact
  | countedTransact (fits : queue.length ≤ unsignedInt config.toolservTransactMax) :
    AccessStep config members key answer queue .countTransact queue .countExport
  | countedExport (fits : queue.countP exportCondition ≤ unsignedInt config.toolservExportMax) :
    AccessStep config members key answer queue .countExport queue .countConnect
  | countedConnect
    (fits : queue.countP (connectCondition members.easHost) ≤ unsignedInt config.mbsConnectMax) :
    AccessStep config members key answer queue .countConnect queue .insert
  | inserted (added : answer = .ok) :
    AccessStep config members key answer queue .insert
      (queue.insertMigrationInformation key members.loginId (fromStringUnsigned members.nodeId)
        members.easHost 0) (.returned 0)

theorem accessDb_step (config : LimitConfig) (members : Members) (key : Nat) (answer : Answer)
    (queue queue' : Queue) (point point' : Access)
    (stepped : accessDb config members key answer queue point = some (queue', point')) :
    AccessStep config members key answer queue point queue' point' := by
  have gaveUp (notAdded : point = .insert → answer ≠ .ok) (rc : Nat)
      (here : (queue, Access.returned rc) = (queue', point')) :
      AccessStep config members key answer queue point queue' point' := by
    obtain ⟨rfl, rfl⟩ := Prod.mk.inj here
    exact .gaveUp point rc notAdded
  -- an exception of a statement ends the handler wherever it is
  cases answer with
  | dupEntry =>
    cases point <;> simp only [accessDb, attempt, Option.some_inj, reduceCtorEq] at stepped <;>
      exact gaveUp nofun _ stepped
  | failed =>
    cases point <;> simp only [accessDb, attempt, Option.some_inj, reduceCtorEq] at stepped <;>
      exact gaveUp nofun _ stepped
  | ok =>
    cases point with
    | init =>
      obtain ⟨rfl, rfl⟩ := Prod.mk.inj (Option.some.inj stepped)
      exact .connected
    | countTransact =>
      simp only [accessDb, attempt, Option.some_inj] at stepped
      split at stepped
      -- the count was over its limit
      · exact gaveUp nofun _ stepped
      next fits =>
        obtain ⟨rfl, rfl⟩ := Prod.mk.inj stepped
        exact .countedTransact (by simpa [Queue.getRecordCount] using fits)
    | countExport =>
      simp only [accessDb, attempt, Option.some_inj] at stepped
      split at stepped
      · exact gaveUp nofun _ stepped
      next fits =>
        obtain ⟨rfl, rfl⟩ := Prod.mk.inj stepped
        exact .countedExport (Nat.not_lt.mp fits)
    | countConnect =>
      simp only [accessDb, attempt, Option.some_inj] at stepped
      split at stepped
      · exact gaveUp nofun _ stepped
      next fits =>
        obtain ⟨rfl, rfl⟩ := Prod.mk.inj stepped
        exact .countedConnect (Nat.not_lt.mp fits)
    | insert =>
      obtain ⟨rfl, rfl⟩ := Prod.mk.inj (Option.some.inj stepped)
      exact .inserted rfl
    | returned rc => cases stepped

/-! ### The handlers together -/

/-- The table, the number of the next row, and where each handler is. -/
structure Reception (ι : Type) where
  queue : Queue
  nextKey : Nat
  point : ι → Access

/-- A handler's next statement with the database's answer, or another program's statement. -/
inductive Move (ι : Type) where
  | handler (who : ι) (answer : Answer)
  | other (statement : Statement)

/-- The statements that only delete rows or raise their status. -/
def Statement.advances (queue : Queue) : Statement → Bool
  | .insertRow .. => false
  | .setZimbraId .. => true
  | .setProcStatus loginId procStatus =>
    queue.all fun row => row.loginId ≠ loginId || row.procStatus ≤ procStatus
  | .deleteRows _ => true

variable {ι : Type} [DecidableEq ι]

def Reception.step (config : LimitConfig) (requests : ι → Members) (s : Reception ι) :
    Move ι → Option (Reception ι)
  | .handler who answer =>
    match accessDb config (requests who) s.nextKey answer s.queue (s.point who) with
    | none => none
    | some (queue, point) => some ⟨queue, s.nextKey + 1, Function.update s.point who point⟩
  | .other statement =>
    if statement.advances s.queue then some { s with queue := statement.run s.queue } else none

/-- No handler has done anything yet. -/
def Reception.start (queue : Queue) : Reception ι := ⟨queue, 0, fun _ => .init⟩

/-- A row of the host that is not processed yet or exporting. -/
def activeAt (easHost : Bytes) (row : MigrationRow) : Bool :=
  exportCondition row && row.easHost = easHost

/-- The table is within the limits as they are configured. -/
structure Within (config : LimitConfig) (queue : Queue) : Prop where
  transact : (queue.length : Int) ≤ config.toolservTransactMax
  exports : (queue.countP exportCondition : Int) ≤ config.toolservExportMax
  connects : ∀ easHost, (queue.countP (activeAt easHost) : Int) ≤ config.mbsConnectMax

/-- The table has room for one more row of the host. -/
structure Room (config : LimitConfig) (easHost : Bytes) (queue : Queue) : Prop where
  transact : (queue.length : Int) < config.toolservTransactMax
  exports : (queue.countP exportCondition : Int) < config.toolservExportMax
  connects : (queue.countP (activeAt easHost) : Int) < config.mbsConnectMax

/-! ### Counts -/

/-- Whether a row counts depends on its status and columns that no statement changes, and a raised
status does not make it count. -/
structure Fading (condition : MigrationRow → Bool) : Prop where
  zimbraId : ∀ row zimbraId, condition { row with zimbraId := zimbraId } = condition row
  procStatus : ∀ row procStatus, row.procStatus ≤ procStatus →
    condition { row with procStatus := procStatus } = true → condition row = true

theorem fading_exportCondition : Fading exportCondition := by
  refine ⟨fun _ _ => rfl, fun row procStatus raised counted => ?_⟩
  simp only [exportCondition, Bool.or_eq_true, decide_eq_true_eq] at counted ⊢
  omega

theorem fading_activeAt (easHost : Bytes) : Fading (activeAt easHost) := by
  refine ⟨fun _ _ => rfl, fun row procStatus raised counted => ?_⟩
  rw [activeAt, Bool.and_eq_true] at counted ⊢
  exact ⟨fading_exportCondition.procStatus row procStatus raised counted.1, counted.2⟩

theorem Statement.countP_run_le (queue : Queue) (statement : Statement)
    (advances : statement.advances queue = true) (condition : MigrationRow → Bool)
    (fading : Fading condition) :
    (statement.run queue).countP condition ≤ queue.countP condition := by
  cases statement with
  | insertRow => cases advances
  | setZimbraId loginId zimbraId =>
    rw [Statement.run, Queue.updateZimbraId, Queue.updateLogin, List.countP_map]
    refine List.countP_mono_left fun row _ counted => ?_
    rw [Function.comp_apply] at counted
    split at counted
    · rwa [fading.zimbraId] at counted
    · exact counted
  | setProcStatus loginId procStatus =>
    rw [Statement.run, Queue.updateProcStatus, Queue.updateLogin, List.countP_map]
    refine List.countP_mono_left fun row member counted => ?_
    rw [Function.comp_apply] at counted
    split at counted
    next same =>
      -- an update to a status that is not lower counts no new row
      have raised := List.all_eq_true.mp advances row member
      exact fading.procStatus row procStatus (by simpa [same] using raised) counted
    · exact counted
  | deleteRows loginId => exact List.Sublist.countP_le List.filter_sublist

theorem Statement.length_run_le (queue : Queue) (statement : Statement)
    (advances : statement.advances queue = true) : (statement.run queue).length ≤ queue.length := by
  have counted := Statement.countP_run_le queue statement advances (fun _ => true)
    ⟨fun _ _ => rfl, fun _ _ _ _ => rfl⟩
  simpa using counted

/-- A new row is active at its own host and no other. -/
theorem within_insert_iff (config : LimitConfig) (queue : Queue) (key : Nat) (loginId : Bytes)
    (nodeId : Nat) (easHost : Bytes) (within : Within config queue) :
    Within config (queue.insertMigrationInformation key loginId nodeId easHost 0) ↔
      Room config easHost queue := by
  have exported : (queue.insertMigrationInformation key loginId nodeId easHost 0).countP
      exportCondition = queue.countP exportCondition + 1 := by
    rw [Queue.insertMigrationInformation, List.countP_append]
    rfl
  have connected (host : Bytes) :
    (queue.insertMigrationInformation key loginId nodeId easHost 0).countP
      (activeAt host) = queue.countP (activeAt host) + if easHost = host then 1 else 0 := by
    rw [Queue.insertMigrationInformation, List.countP_append, List.countP_singleton]
    simp [activeAt, exportCondition]
  constructor
  -- the counts are those of the table before and one more, at the new row's host
  · rintro ⟨transact, exports, connects⟩
    have connects := connects easHost
    rw [connected, if_pos rfl] at connects
    rw [exported] at exports
    rw [Queue.insertMigrationInformation, List.length_append, List.length_singleton] at transact
    exact ⟨by omega, by omega, by omega⟩
  · rintro ⟨transact, exports, connects⟩
    refine ⟨?_, by rw [exported]; omega, fun host => ?_⟩
    · rw [Queue.insertMigrationInformation, List.length_append, List.length_singleton]
      omega
    · rw [connected]
      split
      next same =>
        subst same
        omega
      · exact within.connects host

/-! ### Runs -/

section runs

variable (config : LimitConfig) (requests : ι → Members)

theorem within_other (queue : Queue) (statement : Statement)
    (advances : statement.advances queue = true) (within : Within config queue) :
    Within config (statement.run queue) := by
  have length := statement.length_run_le queue advances
  have exports := statement.countP_run_le queue advances _ fading_exportCondition
  refine ⟨?_, ?_, fun easHost => ?_⟩
  · exact le_trans (by omega) within.transact
  · exact le_trans (by omega) within.exports
  · have connects := statement.countP_run_le queue advances _ (fading_activeAt easHost)
    exact le_trans (by omega) (within.connects easHost)

/-- A count that passes is within the limit as it is configured. -/
theorem le_of_passes {count : Nat} {limit : Int} (nonnegative : 0 ≤ limit)
    (passes : count ≤ unsignedInt limit) : (count : Int) ≤ limit := by
  have small := unsignedInt_le limit nonnegative
  omega

theorem Within.nonnegative {config : LimitConfig} {queue : Queue} (within : Within config queue) :
    0 ≤ config.toolservTransactMax ∧ 0 ≤ config.toolservExportMax ∧ 0 ≤ config.mbsConnectMax :=
  ⟨(Int.natCast_nonneg _).trans within.transact, (Int.natCast_nonneg _).trans within.exports,
    (Int.natCast_nonneg _).trans (within.connects [])⟩

/-- What a step of the whole can do. -/
theorem Reception.step_spec (s t : Reception ι) (move : Move ι)
    (stepped : s.step config requests move = some t) :
    match move with
    | .other statement =>
      statement.advances s.queue = true ∧ t = { s with queue := statement.run s.queue }
    | .handler who answer =>
      ∃ queue point,
        AccessStep config (requests who) s.nextKey answer s.queue (s.point who) queue point ∧
        t = ⟨queue, s.nextKey + 1, Function.update s.point who point⟩ := by
  cases move with
  | other statement =>
    rw [Reception.step] at stepped
    split at stepped
    next advances => exact ⟨advances, (Option.some.inj stepped).symm⟩
    · cases stepped
  | handler who answer =>
    rw [Reception.step] at stepped
    split at stepped
    · cases stepped
    next queue point went =>
      exact ⟨queue, point, accessDb_step _ _ _ _ _ _ _ _ went, (Option.some.inj stepped).symm⟩

/-! ### Handlers one after the other -/

/-- The handlers of which the counts may be out of date before their INSERT. -/
def Access.counting : Access → Bool
  | .countExport | .countConnect | .insert => true
  | _ => false

/-- A handler goes on past a count only below the limit, and adds its row while no other handler is
between its counts and its INSERT. -/
def Careful (s : Reception ι) : Move ι → Prop
  | .handler who _ =>
    (s.point who = .countTransact → (s.queue.length : Int) ≠ config.toolservTransactMax) ∧
    (s.point who = .countExport →
      (s.queue.countP exportCondition : Int) ≠ config.toolservExportMax) ∧
    (s.point who = .countConnect →
      (s.queue.countP (activeAt (requests who).easHost) : Int) ≠ config.mbsConnectMax) ∧
    (s.point who = .insert → ∀ other, other ≠ who → (s.point other).counting = false)
  | .other _ => True

instance decidableCareful [Fintype ι] (s : Reception ι) :
    ∀ move, Decidable (Careful config requests s move)
  | .handler _ _ => inferInstanceAs (Decidable (_ ∧ _))
  | .other _ => inferInstanceAs (Decidable True)

/-- What a handler has seen below the limits still is. -/
def Access.Seen (easHost : Bytes) (queue : Queue) : Access → Prop
  | .countExport => (queue.length : Int) < config.toolservTransactMax
  | .countConnect =>
    (queue.length : Int) < config.toolservTransactMax ∧
      (queue.countP exportCondition : Int) < config.toolservExportMax
  | .insert => Room config easHost queue
  | _ => True

theorem Access.Seen.of_le {easHost : Bytes} {queue queue' : Queue} {point : Access}
    (seen : point.Seen config easHost queue) (length : queue'.length ≤ queue.length)
    (exports : queue'.countP exportCondition ≤ queue.countP exportCondition)
    (connects : queue'.countP (activeAt easHost) ≤ queue.countP (activeAt easHost)) :
    point.Seen config easHost queue' := by
  cases point with
  | countExport => exact lt_of_le_of_lt (Int.ofNat_le.mpr length) seen
  | countConnect =>
    exact ⟨lt_of_le_of_lt (Int.ofNat_le.mpr length) seen.1,
      lt_of_le_of_lt (Int.ofNat_le.mpr exports) seen.2⟩
  | insert =>
    exact ⟨lt_of_le_of_lt (Int.ofNat_le.mpr length) seen.1,
      lt_of_le_of_lt (Int.ofNat_le.mpr exports) seen.2,
      lt_of_le_of_lt (Int.ofNat_le.mpr connects) seen.3⟩
  | _ => trivial

theorem Access.seen_of_not_counting (easHost : Bytes) (queue : Queue) (point : Access)
    (idle : point.counting = false) : point.Seen config easHost queue := by
  cases point <;> trivial

/-- The third count takes in every row that is active at the host. -/
theorem activeAt_le_connectCondition (easHost : Bytes) (queue : Queue) :
    queue.countP (activeAt easHost) ≤ queue.countP (connectCondition easHost) := by
  refine List.countP_mono_left fun row _ active => ?_
  simp only [activeAt, exportCondition, Bool.and_eq_true, Bool.or_eq_true, decide_eq_true_eq]
    at active
  simp only [connectCondition, Bool.or_eq_true, Bool.and_eq_true, decide_eq_true_eq]
  exact active.1.imp_right fun one => ⟨one, active.2⟩

/-- The table is within the limits, and the handlers have seen what still is. -/
structure Admitting (s : Reception ι) : Prop where
  within : Within config s.queue
  seen : ∀ who, (s.point who).Seen config (requests who).easHost s.queue

variable {config requests}

omit [DecidableEq ι] in
theorem Admitting.other {s : Reception ι} (admitting : Admitting config requests s)
    (statement : Statement) (advances : statement.advances s.queue = true) :
    Admitting config requests { s with queue := statement.run s.queue } where
  within := within_other config s.queue statement advances admitting.within
  seen := fun who => (admitting.seen who).of_le config (statement.length_run_le s.queue advances)
    (statement.countP_run_le s.queue advances _ fading_exportCondition)
    (statement.countP_run_le s.queue advances _ (fading_activeAt _))

omit [DecidableEq ι] in
/-- A handler's own step: a count that is not at its limit is below it. -/
theorem Admitting.own {s : Reception ι} (admitting : Admitting config requests s) {who : ι}
    {answer : Answer} (careful : Careful config requests s (.handler who answer)) {queue : Queue}
    {point : Access}
    (moved : AccessStep config (requests who) s.nextKey answer s.queue (s.point who) queue point) :
    Within config queue ∧ point.Seen config (requests who).easHost queue := by
  obtain ⟨transact, exports, connects⟩ := admitting.within.nonnegative
  have within := admitting.within
  have seen := admitting.seen who
  rw [Careful] at careful
  generalize s.point who = before at moved careful seen
  cases moved with
  | gaveUp => exact ⟨within, trivial⟩
  | connected => exact ⟨within, trivial⟩
  | countedTransact fits =>
    exact ⟨within, lt_of_le_of_ne (le_of_passes transact fits) (careful.1 rfl)⟩
  | countedExport fits =>
    exact ⟨within, seen, lt_of_le_of_ne (le_of_passes exports fits) (careful.2.1 rfl)⟩
  | countedConnect fits =>
    have active := (activeAt_le_connectCondition (requests who).easHost s.queue).trans fits
    exact ⟨within, seen.1, seen.2,
      lt_of_le_of_ne (le_of_passes connects active) (careful.2.2.1 rfl)⟩
  | inserted added => exact ⟨(within_insert_iff config s.queue _ _ _ _ within).mpr seen, trivial⟩

omit [DecidableEq ι] in
/-- Another handler's step adds no row, or this one has not counted yet. -/
theorem Admitting.others {s : Reception ι} (admitting : Admitting config requests s) {who : ι}
    {answer : Answer} (careful : Careful config requests s (.handler who answer)) {queue : Queue}
    {point : Access}
    (moved : AccessStep config (requests who) s.nextKey answer s.queue (s.point who) queue point)
    (other : ι) (another : other ≠ who) :
    (s.point other).Seen config (requests other).easHost queue := by
  have seen := admitting.seen other
  rw [Careful] at careful
  generalize s.point who = before at moved careful
  cases moved with
  | inserted => exact Access.seen_of_not_counting config _ _ _ (careful.2.2.2 rfl other another)
  | _ => exact seen

theorem Admitting.step {s t : Reception ι} (admitting : Admitting config requests s) {move : Move ι}
    (careful : Careful config requests s move) (stepped : s.step config requests move = some t) :
    Admitting config requests t := by
  have spec := Reception.step_spec config requests s t move stepped
  cases move with
  | other statement =>
    obtain ⟨advances, rfl⟩ := spec
    exact admitting.other statement advances
  | handler who answer =>
    obtain ⟨queue, point, moved, rfl⟩ := spec
    obtain ⟨within, seen⟩ := admitting.own careful moved
    refine ⟨within, fun other => ?_⟩
    by_cases self : other = who
    · subst self
      simpa only [Function.update_self] using seen
    · simpa only [Function.update_of_ne self] using admitting.others careful moved other self

/-! ### A handler by itself -/

variable (config requests)

/-- The three counts let the request pass. -/
structure CountsPass (members : Members) (queue : Queue) : Prop where
  transact : queue.length ≤ unsignedInt config.toolservTransactMax
  exports : queue.countP exportCondition ≤ unsignedInt config.toolservExportMax
  connects : queue.countP (connectCondition members.easHost) ≤ unsignedInt config.mbsConnectMax

/-- A handler's statements from its first count on, each of them successful. -/
def countAndInsert (who : ι) : List (Move ι) := List.replicate 4 (.handler who .ok)

variable (queue : Queue) (points : ι → Access) (who : ι)

/-- The handler is at a point, and the others are where they are. -/
def Reception.at_ (nextKey : Nat) (point : Access) : Reception ι :=
  ⟨queue, nextKey, Function.update points who point⟩

/-- The counts leave the table as it is. -/
theorem Reception.step_counted (nextKey : Nat) (point point' : Access)
    (went : accessDb config (requests who) nextKey .ok queue point = some (queue, point')) :
    (at_ queue points who nextKey point).step config requests (.handler who .ok) =
      some (at_ queue points who (nextKey + 1) point') := by
  simp only [Reception.step, at_, Function.update_self, went, Function.update_idem]

/-- By itself, a handler whose counts pass keeps within the limits just when no count is at its
limit. -/
theorem alone_iff (within : Within config queue) (nextKey : Nat)
    (idle : ∀ other, other ≠ who → (points other).counting = false)
    (passes : CountsPass config (requests who) queue) :
    Transition.Throughout (Reception.step config requests) (fun s => Within config s.queue)
        (Reception.at_ queue points who nextKey .countTransact) (countAndInsert who) ↔
      Transition.EachStep (Reception.step config requests) (Careful config requests)
        (Reception.at_ queue points who nextKey .countTransact) (countAndInsert who) := by
  have transact (key : Nat) := Reception.step_counted config requests queue points who
    key .countTransact .countExport (by
      rw [accessDb, attempt, if_neg]
      simpa [Queue.getRecordCount] using passes.transact)
  have exports (key : Nat) := Reception.step_counted config requests queue points who
    key .countExport .countConnect (by
      rw [accessDb, attempt, if_neg]
      exact Nat.not_lt.mpr passes.exports)
  have connects (key : Nat) := Reception.step_counted config requests queue points who
    key .countConnect .insert (by
      rw [accessDb, attempt, if_neg]
      exact Nat.not_lt.mpr passes.connects)
  have room : Room config (requests who).easHost queue ↔
      (queue.length : Int) ≠ config.toolservTransactMax ∧
        (queue.countP exportCondition : Int) ≠ config.toolservExportMax ∧
        (queue.countP (activeAt (requests who).easHost) : Int) ≠ config.mbsConnectMax :=
    ⟨fun room => ⟨room.transact.ne, room.exports.ne, room.connects.ne⟩, fun apart =>
      ⟨lt_of_le_of_ne within.transact apart.1, lt_of_le_of_ne within.exports apart.2.1,
        lt_of_le_of_ne (within.connects _) apart.2.2⟩⟩
  have insert (key : Nat) : (Reception.at_ queue points who key .insert).step config requests
      (.handler who .ok) =
        some (Reception.at_ (queue.insertMigrationInformation key (requests who).loginId
        (fromStringUnsigned (requests who).nodeId) (requests who).easHost 0) points who (key + 1)
        (.returned 0)) := by
    simp only [Reception.step, Reception.at_, Function.update_self, accessDb, attempt,
      Function.update_idem]
  -- what is asked of each of the four steps
  have atTransact (key : Nat) :
    Careful config requests (Reception.at_ queue points who key .countTransact)
      (.handler who .ok) ↔ (queue.length : Int) ≠ config.toolservTransactMax := by
    simp [Careful, Reception.at_]
  have atExport (key : Nat) :
    Careful config requests (Reception.at_ queue points who key .countExport)
      (.handler who .ok) ↔ (queue.countP exportCondition : Int) ≠ config.toolservExportMax := by
    simp [Careful, Reception.at_]
  have atConnect (key : Nat) :
    Careful config requests (Reception.at_ queue points who key .countConnect)
      (.handler who .ok) ↔
        (queue.countP (activeAt (requests who).easHost) : Int) ≠ config.mbsConnectMax := by
    simp [Careful, Reception.at_]
  have atInsert (key : Nat) : Careful config requests (Reception.at_ queue points who key .insert)
      (.handler who .ok) := by
    refine ⟨by simp [Reception.at_], by simp [Reception.at_], by simp [Reception.at_], ?_⟩
    intro _ other another
    simp only [Reception.at_, Function.update_of_ne another]
    exact idle other another
  simp only [countAndInsert, List.replicate, Transition.Throughout, Transition.EachStep, transact,
    exports, connects, insert, atTransact, atExport, atConnect, atInsert, and_true]
  simp only [Reception.at_, within, true_and, within_insert_iff config queue _ _ _ _ within, room]

/-- From a table within the limits, a run stays within them when handlers pass the counts below the
limits only and do not overlap. Of a handler by itself, whose counts pass, no less can be asked. -/
theorem within_limits_of_careful (queue : Queue) (within : Within config queue) :
    (∀ moves : List (Move ι),
      Transition.EachStep (Reception.step config requests) (Careful config requests)
          (Reception.start queue) moves →
        Transition.Throughout (Reception.step config requests) (fun s => Within config s.queue)
          (Reception.start queue) moves) ∧
    ∀ (points : ι → Access) (who : ι) (nextKey : Nat),
      (∀ other, other ≠ who → (points other).counting = false) →
        CountsPass config (requests who) queue →
          (Transition.Throughout (Reception.step config requests) (fun s => Within config s.queue)
              (Reception.at_ queue points who nextKey .countTransact) (countAndInsert who) ↔
            Transition.EachStep (Reception.step config requests) (Careful config requests)
              (Reception.at_ queue points who nextKey .countTransact) (countAndInsert who)) := by
  constructor
  · intro moves careful
    exact Transition.throughout_of_invariant (I := Admitting config requests)
      (fun s move t admitting careful stepped => admitting.step careful stepped)
      (fun s admitting => admitting.within) (Reception.start queue) moves
      ⟨within, fun _ => trivial⟩ careful
  · exact fun points who nextKey idle passes =>
      alone_iff config requests queue points who within nextKey idle passes

end runs

/-- One handler whose statements all succeed. -/
def undisturbed : List (Move Unit) := List.replicate 5 (.handler () .ok)

/-- A handler alone, with a table that has room. -/
theorem within_limits_alone :
    Transition.Throughout (Reception.step ⟨2, 2, 2⟩
      fun _ => ⟨ascii "user2", ascii "1", ascii "mbs1"⟩)
      (fun s => Within ⟨2, 2, 2⟩ s.queue)
      (Reception.start [⟨0, ascii "user1", [], 1, ascii "mbs1", exporting⟩]) undisturbed := by
  have within : Within ⟨2, 2, 2⟩ [⟨0, ascii "user1", [], 1, ascii "mbs1", exporting⟩] :=
    ⟨by decide, by decide, fun _ => (Int.ofNat_le.mpr List.countP_le_length).trans (by decide)⟩
  exact (within_limits_of_careful ⟨2, 2, 2⟩
    (fun _ : Unit => ⟨ascii "user2", ascii "1", ascii "mbs1"⟩)
    _ within).1 undisturbed (by decide +kernel)

/-- A table that is at its limits, and a handler alone: each count passes because it is not over the
limit, and a row is added. -/
theorem limits_exceeded :
    ¬ ∀ (config : LimitConfig) (requests : Unit → Members) (queue : Queue),
      Within config queue → ∀ moves,
        Transition.Throughout (Reception.step config requests) (fun s => Within config s.queue)
          (Reception.start queue) moves := by
  intro claim
  have within : Within ⟨1, 1, 1⟩ [⟨0, ascii "user1", [], 1, ascii "mbs1", exporting⟩] :=
    ⟨by decide, by decide, fun _ => (Int.ofNat_le.mpr List.countP_le_length).trans (by decide)⟩
  have all :=
    claim ⟨1, 1, 1⟩ (fun _ => ⟨ascii "user2", ascii "1", ascii "mbs1"⟩) _ within undisturbed
  have short := all.mono (Q := fun s => (s.queue.length : Int) ≤ 1) fun s here => here.transact
  exact absurd short (by decide +kernel)

end Zn
