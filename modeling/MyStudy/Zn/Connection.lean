import MyStudy.Lib.Transition
import MyStudy.Zn.CheckRequest

/-!
# The connection

A `zn_connection` is driven by the callbacks of its bufferevent. The reply is written and
`_close_flag` set as soon as a request line is there; the write callback ends the connection once
the reply is out. Nothing keeps a read callback in between from serving another line.
-/
namespace Zn

abbrev rcAccept : Nat := 201
abbrev rcServMaint : Nat := 511
abbrev rcEasMaint : Nat := 512
abbrev rcServErr : Nat := 522

structure ConnectionConfig where
  request : RequestConfig
  transPreventDir : Bytes
  transPreventFile4toolserver : Bytes
  greetingChar : Bytes
  responseChar : Nat → Bytes

/-- What the calls that leave the process find or return. An exception may leave `access_db`. -/
structure Surroundings where
  accessible : Bytes → Bool
  accessDb : Option Nat
  execute : Nat

/-- What a connection does besides reading. -/
inductive Call where
  | greeting (text : Bytes)
  | request (line : Bytes)
  | accessDb (members : Members)
  | execute (loginId : Bytes)
  | reply (text : Bytes)
deriving DecidableEq, Repr

structure Connection where
  /-- `_bev` is set, so callbacks come. -/
  bev : Bool
  input : Bytes
  closeFlag : Bool
  members : Members
  response : Bytes
  calls : List Call
deriving DecidableEq, Repr

def crlf : Bytes := [13, 10]

/-- `evbuffer_readln` with `EVBUFFER_EOL_CRLF_STRICT`: the first line and what is left. -/
def readln : Bytes → Option (Bytes × Bytes)
  | [] => none
  | 13 :: 10 :: rest => some ([], rest)
  | c :: rest => (readln rest).map fun found => (c :: found.1, found.2)

namespace Connection

def call (s : Connection) (made : Call) : Connection := { s with calls := s.calls ++ [made] }

/-- `start` of a new connection. -/
def start (config : ConnectionConfig) : Connection :=
  ⟨true, [], false, ⟨[], [], []⟩, [], [.greeting (config.greetingChar ++ crlf)]⟩

def checkPreventFile (config : ConnectionConfig) (around : Surroundings) (s : Connection) : Nat :=
  if !around.accessible config.transPreventDir then rcServErr
  else if around.accessible
      (config.transPreventDir ++ ascii "/" ++ config.transPreventFile4toolserver ++
        ascii ".lock") then
    rcServMaint
  else if around.accessible
      (config.transPreventDir ++ ascii "/" ++ s.members.easHost ++ ascii ".lock") then
    rcEasMaint
  else 0

def makeResponse (config : ConnectionConfig) (rc : Nat) : Bytes :=
  decimal rc ++ ascii " " ++ config.responseChar rc

def doReply (config : ConnectionConfig) (rc : Nat) (s : Connection) : Connection :=
  { s.call (.reply (makeResponse config rc ++ crlf)) with
    response := makeResponse config rc, closeFlag := true }

/-- The checks of `on_read` from `access_db` on: the return value, `none` for an exception. -/
def register (around : Surroundings) (s : Connection) : Option Nat × Connection :=
  let s := s.call (.accessDb s.members)
  match around.accessDb with
  | none => (none, s)
  | some rc =>
    if rc ≠ 0 then (some rc, s)
    else
      (some (if around.execute ≠ 0 then around.execute else rcAccept),
        s.call (.execute s.members.loginId))

/-- The loop of `on_read` that runs once, with a `break` for each check that fails. -/
def process (config : ConnectionConfig) (around : Surroundings) (request : Bytes) (s : Connection) :
    Option Nat × Connection :=
  match checkRequest config.request request s.members with
  | none => (none, s)
  | some (rc, members) =>
    let s := { s with members := members }
    if rc ≠ 0 then (some rc, s)
    else if s.checkPreventFile config around ≠ 0 then (some (s.checkPreventFile config around), s)
    else s.register around

/-- An exception that leaves the callback ends the process. -/
def finish (config : ConnectionConfig) : Option Nat × Connection → Connection
  | (none, s) => { s with bev := false }
  | (some ret, s) => s.doReply config ret

def onRead (config : ConnectionConfig) (around : Surroundings) (s : Connection) : Connection :=
  match readln s.input with
  | none => s
  | some (line, rest) =>
    finish config (process config around (cstr line)
      ({ s with input := rest }.call (.request (cstr line))))

/-- `end`. -/
def close (s : Connection) : Connection := { s with bev := false }

def onWrite (s : Connection) : Connection := if s.closeFlag then s.close else s

end Connection

/-- The client's bytes come in, or a callback is called. -/
inductive Callback where
  | arrive (bytes : Bytes)
  | read (around : Surroundings)
  | write
  | event

/-- Callbacks come as long as there is a bufferevent. -/
def Connection.step (config : ConnectionConfig) (s : Connection) (callback : Callback) :
    Option Connection :=
  if s.bev then
    match callback with
    | .arrive bytes => some { s with input := s.input ++ bytes }
    | .read around => some (s.onRead config around)
    | .write => some s.onWrite
    | .event => some s.close
  else none

/-! ### One request -/

inductive Kind where
  | greeting
  | request
  | accessDb
  | execute
  | reply
deriving DecidableEq, Repr

def Call.kind : Call → Kind
  | .greeting _ => .greeting
  | .request _ => .request
  | .accessDb _ => .accessDb
  | .execute _ => .execute
  | .reply _ => .reply

/-- At most one request is processed: no kind of call is made twice. -/
def AtMostOne (s : Connection) : Prop := ∀ kind, (s.calls.map Call.kind).count kind ≤ 1

/-- No read callback finds a line once the reply is written. -/
def NoLateLine (s : Connection) : Callback → Prop
  | .read _ => s.closeFlag = true → readln s.input = none
  | _ => True

namespace Connection

theorem register_calls (around : Surroundings) (s : Connection) :
    ∃ added, (s.register around).2.calls = s.calls ++ added ∧
      (added.map Call.kind).Sublist [.accessDb, .execute] := by
  rw [register]
  split
  · exact ⟨[_], rfl, by simp [Call.kind]⟩
  · split
    · exact ⟨[_], rfl, by simp [Call.kind]⟩
    · exact ⟨[_, _], List.append_assoc _ _ _, List.Sublist.refl _⟩

theorem process_calls (config : ConnectionConfig) (around : Surroundings) (request : Bytes)
    (s : Connection) :
    ∃ added, (s.process config around request).2.calls = s.calls ++ added ∧
      (added.map Call.kind).Sublist [.accessDb, .execute] := by
  have nothing : ([].map Call.kind).Sublist [.accessDb, .execute] := by simp
  rw [process]
  split
  · exact ⟨[], by simp, nothing⟩
  simp only
  split
  · exact ⟨[], by simp, nothing⟩
  split
  · exact ⟨[], by simp, nothing⟩
  · exact register_calls around _

theorem finish_calls (config : ConnectionConfig) (result : Option Nat × Connection) :
    ∃ added, (finish config result).calls = result.2.calls ++ added ∧
      (added.map Call.kind).Sublist [.reply] ∧
      ((finish config result).closeFlag = true ∨ (finish config result).bev = false) := by
  -- an exception closes the connection, a result is written back
  obtain ⟨_ | ret, s⟩ := result
  · exact ⟨[], by simp [finish], by simp, .inr rfl⟩
  · exact ⟨[_], rfl, List.Sublist.refl _, .inl rfl⟩

/-- What a read callback that finds a line does to the calls. -/
theorem onRead_calls (config : ConnectionConfig) (around : Surroundings) (s : Connection)
    (found : readln s.input ≠ none) :
    ∃ added, ((s.onRead config around).calls.map Call.kind) =
        s.calls.map Call.kind ++ .request :: added ∧
      added.Sublist [.accessDb, .execute, .reply] ∧
      ((s.onRead config around).closeFlag = true ∨ (s.onRead config around).bev = false) := by
  rw [onRead]
  split
  next none_ => exact absurd none_ found
  next line rest _ =>
    obtain ⟨added, processed, small⟩ := process_calls config around (cstr line)
      ({ s with input := rest }.call (.request (cstr line)))
    obtain ⟨added', finished, small', over'⟩ :=
      finish_calls config (process config around (cstr line)
      ({ s with input := rest }.call (.request (cstr line))))
    -- the calls of the processing, and behind them the reply
    refine ⟨added.map Call.kind ++ added'.map Call.kind, ?_, small.append small', over'⟩
    rw [finished, processed]
    simp [call, Call.kind]

end Connection

/-- The calls of a connection are some of the five in their order. The reply comes after a request,
and a connection that is open without one has only greeted. -/
structure Orderly (s : Connection) : Prop where
  order : (s.calls.map Call.kind).Sublist [.greeting, .request, .accessDb, .execute, .reply]
  replied : s.closeFlag = true → .request ∈ s.calls.map Call.kind
  waiting : s.bev = true → s.closeFlag = false → s.calls.map Call.kind = [.greeting]

theorem Orderly.atMostOne (s : Connection) (orderly : Orderly s) : AtMostOne s :=
  List.nodup_iff_count_le_one.mp (orderly.order.nodup (by decide))

theorem orderly_step (config : ConnectionConfig) (s : Connection) (callback : Callback)
    (t : Connection) (orderly : Orderly s) (early : NoLateLine s callback)
    (stepped : s.step config callback = some t) : Orderly t := by
  simp only [Connection.step] at stepped
  split at stepped
  next open_ =>
    cases callback with
    | arrive bytes =>
      obtain rfl := Option.some.inj stepped
      exact ⟨orderly.order, orderly.replied, orderly.waiting⟩
    | read around =>
      obtain rfl := Option.some.inj stepped
      by_cases found : readln s.input = none
      · simpa [Connection.onRead, found] using orderly
      · -- the line is the first one
        have first : s.closeFlag = false := by
          rw [← Bool.not_eq_true]
          exact fun late => found (early late)
        obtain ⟨added, calls, small, over'⟩ := s.onRead_calls config around found
        rw [orderly.waiting open_ first] at calls
        constructor
        · rw [calls]
          exact (small.cons_cons Kind.request).cons_cons Kind.greeting
        · intro _
          rw [calls]
          simp
        · intro open' first'
          rcases over' with late | gone
          · rw [late] at first'
            cases first'
          · rw [gone] at open'
            cases open'
    -- the reply is out, and the connection closes
    | write =>
      obtain rfl := Option.some.inj stepped
      rw [Connection.onWrite]
      split
      · exact ⟨orderly.order, orderly.replied, nofun⟩
      · exact orderly
    | event =>
      obtain rfl := Option.some.inj stepped
      exact ⟨orderly.order, orderly.replied, nofun⟩
  · cases stepped

/-- A second line is a second request. -/
theorem noLateLine_of_atMostOne (config : ConnectionConfig) (s : Connection) (callback : Callback)
    (t : Connection) (orderly : Orderly s) (stepped : s.step config callback = some t)
    (one : AtMostOne t) :
    NoLateLine s callback := by
  cases callback with
  | read around =>
    intro late
    by_contra found
    obtain ⟨added, calls, _, _⟩ := s.onRead_calls config around found
    simp only [Connection.step] at stepped
    split at stepped
    · obtain rfl := Option.some.inj stepped
      -- the request before the reply and this one make two
      have twice := one .request
      have once := List.one_le_count_iff.mpr (orderly.replied late)
      rw [calls, List.count_append, List.count_cons_self] at twice
      omega
    · cases stepped
  | _ => trivial

/-- A connection processes one request at most just as long as no read callback finds a line between
the reply and the write callback. -/
theorem atMostOne_iff (config : ConnectionConfig) (callbacks : List Callback) :
    Transition.Throughout (Connection.step config) AtMostOne (Connection.start config) callbacks ↔
      Transition.EachStep (Connection.step config) NoLateLine (Connection.start config)
      callbacks := by
  apply Transition.throughout_iff_eachStep (orderly_step config) Orderly.atMostOne
    (noLateLine_of_atMostOne config)
  exact ⟨by simp [Connection.start, Call.kind], nofun, fun _ _ => rfl⟩

/-- The second line comes in between the read callback for the first and the write callback. -/
theorem second_line_served :
    ¬ ∀ (config : ConnectionConfig) (callbacks : List Callback),
      Transition.Throughout (Connection.step config) AtMostOne (Connection.start config)
      callbacks := by
  intro claim
  let around : Surroundings := ⟨fun path => path = ascii "/prevent", some 0, 0⟩
  have all :=
    claim ⟨⟨64, 4, 50⟩, ascii "/prevent", ascii "tool", ascii "ready", fun _ => ascii "ok"⟩
    [.arrive (ascii "user1 1 mbs1\r\n"), .read around, .arrive (ascii "user2 1 mbs1\r\n"),
      .read around]
  have short :=
    all.mono (Q := fun s => (s.calls.map Call.kind).count .accessDb ≤ 1) fun s one => one _
  exact absurd short (by decide +kernel)

end Zn
