import MyStudy.Lib.Program
import MyStudy.Zn.FolderInfo

/-!
# The IMAP client

The commands the tool sends over a socket, and what it does with the answers. A server is what the
calls of `read` and `write` give, one after another: also one that reacts to what it is sent is,
in any one run, such a sequence. The trace of a run says what was sent and received in which order.
-/
namespace Zn

open Program

def cimapTag : Bytes := ascii "00"

def cimapCmdEnd : Bytes := [13, 10]

def maxBuffer : Nat := 1024

inductive Verb where
  | login
  | create
  | append
  | logout
  deriving DecidableEq, Repr

def Verb.word : Verb → Bytes
  | .login => ascii "LOGIN"
  | .create => ascii "CREATE"
  | .append => ascii "APPEND"
  | .logout => ascii "LOGOUT"

/-- The `_options` of an interaction; an option that is not set reads as the empty string. -/
structure CimapOptions where
  username : Bytes := []
  password : Bytes := []
  mailboxname : Bytes := []
  flags : Bytes := []
  datetime : Bytes := []
  literal : Bytes := []
  deriving DecidableEq, Repr

inductive Event where
  | command (verb : Verb) (options : CimapOptions) (sent : Bytes)
  | literal (sent : Bytes)
  | cmdEnd (sent : Bytes)
  | received (response : Bytes)
  | deleted (loginId : Bytes)
  deriving DecidableEq, Repr

/-- A new command, or the end of it all. -/
def Event.endsDialogue : Event → Bool
  | .command .. => true
  | .deleted _ => true
  | _ => false

/-- What an event put on the wire. -/
def Event.sent : Event → Bytes
  | .command _ _ sent => sent
  | .literal sent => sent
  | .cmdEnd sent => sent
  | .received _ => []
  | .deleted _ => []

/-- What the calls give: of `read` the bytes, none of them at the end of the stream, and of `write`
the number of bytes that were taken. `none` stands for -1. -/
structure Server where
  reads : Nat → Option Bytes
  writes : Nat → (length : Nat) → Option (Fin (length + 1))
  reads_length : ∀ call response, reads call = some response → response.length ≤ maxBuffer

/-- A server with which every call succeeds and every write is complete. -/
def Server.reliable (responses : Nat → Bytes)
    (fit : ∀ call, (responses call).length ≤ maxBuffer) : Server where
  reads call := some (responses call)
  writes _ length := some (Fin.last length)
  reads_length call _ same := Option.some.inj same ▸ fit call

/-- What a run changes: how often it called `read` and `write`, its trace, and the `LOGIN_ID` of
the rows in the migration table. -/
structure World where
  readCount : Nat
  writeCount : Nat
  trace : List Event
  queue : List Bytes
  deriving DecidableEq, Repr

/-- The exceptions that end a run. `running` is none of them: a loop has not ended after the rounds
it was given. -/
inductive ImapError where
  | connectFailed
  | write
  | read
  | filter (e : FilterError)
  | running
  deriving DecidableEq, Repr

abbrev Imap := EStateM ImapError World

/-! ### The socket -/

/-- The world after a call of `write` that this event stands for. -/
def World.wrote (w : World) (event : Event) : World :=
  ⟨w.readCount, w.writeCount + 1, w.trace ++ [event], w.queue⟩

/-- The world after a call of `read` that gave these bytes. -/
def World.receives (w : World) (response : Bytes) : World :=
  ⟨w.readCount + 1, w.writeCount, w.trace ++ [.received response], w.queue⟩

variable (server : Server)

/-- The number of bytes a call of `write` takes. -/
def Server.taken (call length : Nat) : Nat := ((server.writes call length).map Fin.val).getD 0

theorem Server.taken_le (call length : Nat) : server.taken call length ≤ length := by
  rw [taken]
  cases server.writes call length with
  | none => exact Nat.zero_le _
  | some n => exact Nat.le_of_lt_succ n.isLt

def write (event : Bytes → Event) (buf : Bytes) : Imap (Option Nat) := fun w =>
  .ok ((server.writes w.writeCount buf.length).map Fin.val)
    (w.wrote (event (buf.take (server.taken w.writeCount buf.length))))

/-- `read` into a buffer: what it does not overwrite stays. -/
def read (readBuf : Bytes) : Imap Bytes := fun w =>
  match server.reads w.readCount with
  | none => .error .read { w with readCount := w.readCount + 1 }
  | some response => .ok (response ++ readBuf.drop response.length) (w.receives response)

theorem ensures_write {event : Bytes → Event} {buf : Bytes} {w : World}
    {Q : Option Nat → World → Prop} {E : ImapError → World → Prop}
    (post : Q ((server.writes w.writeCount buf.length).map Fin.val)
      (w.wrote (event (buf.take (server.taken w.writeCount buf.length))))) :
    Ensures (write server event buf) w Q E := post

theorem ensures_read {readBuf : Bytes} {w : World} {Q : Bytes → World → Prop}
    {E : ImapError → World → Prop}
    (some_ : ∀ response, server.reads w.readCount = some response →
      Q (response ++ readBuf.drop response.length) (w.receives response))
    (none_ : server.reads w.readCount = none →
      E .read { w with readCount := w.readCount + 1 }) :
    Ensures (read server readBuf) w Q E := by
  rw [Ensures, read]
  cases reads : server.reads w.readCount with
  | none => exact none_ reads
  | some response => exact some_ response reads

/-- `std::vector<char> read_buf(MAX_BUFFER)`. -/
def emptyBuffer : Bytes := List.replicate maxBuffer 0

/-! ### `zn_cimap_interaction` -/

def responseStatus (response status : Bytes) : Bool :=
  (cimapTag ++ ascii " " ++ status).isPrefixOf response

/-- All of its body is commented out. -/
def checkResponse (_response : Bytes) : Bool := true

/-- A line of the response answers the command with this status. -/
def answers (response status : Bytes) : Bool :=
  (response.splitOn 10).any fun line => responseStatus line status

/-- The server answers NO or BAD, or hangs up with a BYE, tagged or untagged. -/
def refuses (response : Bytes) : Bool :=
  answers response (ascii "NO") || answers response (ascii "BAD") ||
    answers response (ascii "BYE") ||
    (response.splitOn 10).any fun line => (ascii "* BYE").isPrefixOf line

/-- How every command starts: the write of its line has to be complete. -/
def sendCommand (verb : Verb) (options : CimapOptions) (writeBuf : Bytes) : Imap Unit := do
  let ret ← write server (.command verb options) writeBuf
  if ret = some writeBuf.length then return () else throw .write

theorem ensures_sendCommand {verb : Verb} {options : CimapOptions} {writeBuf : Bytes} {w : World}
    {Q : Unit → World → Prop} {E : ImapError → World → Prop} (some_ : writeBuf ≠ [])
    (complete : server.taken w.writeCount writeBuf.length = writeBuf.length →
      Q () (w.wrote (.command verb options writeBuf)))
    (short : server.taken w.writeCount writeBuf.length ≠ writeBuf.length →
      E .write (w.wrote (.command verb options
        (writeBuf.take (server.taken w.writeCount writeBuf.length))))) :
    Ensures (sendCommand server verb options writeBuf) w Q E := by
  have pos := List.length_pos_of_ne_nil some_
  have all_iff : (server.writes w.writeCount writeBuf.length).map Fin.val = some writeBuf.length ↔
      server.taken w.writeCount writeBuf.length = writeBuf.length := by
    rw [Server.taken]
    cases (server.writes w.writeCount writeBuf.length).map Fin.val with
    | none => simp; omega
    | some n => simp
  rw [sendCommand, ensures_bind, Ensures, write]
  simp only [all_iff]
  split
  next all =>
    rw [all, List.take_length]
    exact complete all
  next less => exact short less

/-- A command with one line and one response. -/
def performLine (verb : Verb) (options : CimapOptions) (writeBuf : Bytes) : Imap Bool := do
  sendCommand server verb options writeBuf
  let readBuf ← read server emptyBuffer
  return checkResponse (cstr readBuf)

def performWelcome : Imap Bool := do
  let _ ← read server emptyBuffer
  return true

def loginLine (options : CimapOptions) : Bytes :=
  cimapTag ++ ascii " " ++ Verb.login.word ++ ascii " " ++ options.username ++ ascii " " ++
    options.password ++ cimapCmdEnd

def performLogin (options : CimapOptions) : Imap Bool :=
  performLine server .login options (loginLine options)

def createLine (options : CimapOptions) : Bytes :=
  cimapTag ++ ascii " " ++ Verb.create.word ++ ascii " " ++ options.mailboxname ++ cimapCmdEnd

def performCreate (options : CimapOptions) : Imap Bool :=
  performLine server .create options (createLine options)

/-! ### `zn_cimap_cmd_append` -/

/-- An optional argument of APPEND with the space after it. -/
def optionalArgument (arg : Bytes) : Bytes := if arg.length ≠ 0 then arg ++ ascii " " else []

def appendLine (options : CimapOptions) : Bytes :=
  cimapTag ++ ascii " " ++ Verb.append.word ++ ascii " " ++ options.mailboxname ++ ascii " " ++
    optionalArgument options.flags ++ optionalArgument options.datetime ++
    ascii "\x7b" ++ decimal options.literal.length ++ ascii "\x7d" ++ cimapCmdEnd

/-- The loop that writes the literal. `ret` is unsigned, so that -1 is no less than the rest. A
write that is not complete takes a byte, so one round more than bytes is enough. -/
def appendLiteral : Nat → Bytes → Imap Bool
  | 0, _ => return true
  | rounds + 1, bufp => do
    match ← write server .literal bufp with
    | none => return true
    | some ret =>
      if ret = 0 then return false
      else if ret < bufp.length then appendLiteral rounds (bufp.drop ret)
      else return true

/-- The loop ends by itself: with more rounds than bytes it does the same. -/
theorem appendLiteral_enough (rounds rounds' : Nat) (bufp : Bytes) (w : World)
    (enough : bufp.length < rounds) (enough' : bufp.length < rounds') :
    appendLiteral server rounds bufp w = appendLiteral server rounds' bufp w := by
  induction rounds generalizing rounds' bufp w with
  | zero => exact absurd enough (Nat.not_lt_zero _)
  | succ rounds ih =>
    obtain ⟨rounds', rfl⟩ := Nat.exists_eq_add_one.mpr (Nat.lt_of_le_of_lt (Nat.zero_le _) enough')
    rw [appendLiteral, appendLiteral]
    simp only [bind, EStateM.bind, write]
    cases (server.writes w.writeCount bufp.length).map Fin.val with
    | none => rfl
    | some ret =>
      simp only
      split
      · rfl
      next some_ =>
        split
        next short =>
          have fewer : (bufp.drop ret).length < bufp.length := by
            rw [List.length_drop]
            omega
          exact ih rounds' (bufp.drop ret) _ (by omega) (by omega)
        · rfl

/-- With complete writes the loop ends in its first round, and leaves the command if the literal
is empty. -/
theorem ensures_appendLiteral {rounds : Nat} {bufp : Bytes} {w : World} {Q : Bool → World → Prop}
    {E : ImapError → World → Prop}
    (complete : server.writes w.writeCount bufp.length = some (Fin.last bufp.length))
    (post : Q (!bufp.isEmpty) (w.wrote (.literal bufp))) :
    Ensures (appendLiteral server (rounds + 1) bufp) w Q E := by
  have all : server.taken w.writeCount bufp.length = bufp.length := by
    rw [Server.taken, complete]
    rfl
  rw [appendLiteral, ensures_bind, Ensures, write, complete, all, List.take_length]
  simp only [Option.map_some, Fin.val_last]
  cases bufp with
  | nil => exact post
  | cons c bufp => simpa [ensures_pure] using post

def performAppend (options : CimapOptions) : Imap Bool := do
  sendCommand server .append options (appendLine options)
  let readBuf ← read server emptyBuffer
  if ← appendLiteral server (options.literal.length + 1) options.literal then
    let _ ← write server .cmdEnd cimapCmdEnd
    let readBuf ← read server readBuf
    return checkResponse (cstr readBuf)
  else return false

/-! ### `zn_cimap_cmd_logout` -/

def logoutLine : Bytes := cimapTag ++ ascii " " ++ Verb.logout.word ++ cimapCmdEnd

/-- The loop of the command: `strncmp` compares the three bytes of "00" with its NUL, so only a
response that is no more than the tag makes it go on. -/
def logoutLoop : Nat → Bytes → Imap Bool
  | 0, _ => throw .running
  | rounds + 1, readBuf => do
    let readBuf ← read server readBuf
    if cstr readBuf = cimapTag then logoutLoop rounds readBuf
    else return checkResponse (cstr readBuf)

def performLogout (rounds : Nat) : Imap Bool := do
  sendCommand server .logout {} logoutLine
  logoutLoop server rounds emptyBuffer

/-! ### What one command does -/

/-- The worlds before and after a command: it was sent, and no other. -/
def Exchange (verb : Verb) (options : CimapOptions) (w w' : World) : Prop :=
  w'.queue = w.queue ∧ ∃ sent rest, w'.trace = w.trace ++ .command verb options sent :: rest ∧
    ∀ event ∈ rest, event.endsDialogue = false

/-- The world of a command that goes on without sending another one. -/
def Exchange.Continues (w w' : World) : Prop :=
  w'.queue = w.queue ∧ ∃ rest, w'.trace = w.trace ++ rest ∧
    ∀ event ∈ rest, event.endsDialogue = false

/-- The events of a run. -/
def eventsOf {α : Type} (m : Imap α) (w : World) : List Event :=
  (finalState m w).trace.drop w.trace.length

theorem Exchange.Continues.refl (w : World) : Continues w w := ⟨rfl, [], by simp, by simp⟩

theorem Exchange.Continues.trans {w₁ w₂ w₃ : World} (first : Continues w₁ w₂)
    (second : Continues w₂ w₃) : Continues w₁ w₃ := by
  obtain ⟨queue, rest, trace, quiet⟩ := first
  obtain ⟨queue', rest', trace', quiet'⟩ := second
  refine ⟨queue'.trans queue, rest ++ rest', by rw [trace', trace, List.append_assoc], ?_⟩
  intro event member
  rcases List.mem_append.mp member with front | back
  · exact quiet event front
  · exact quiet' event back

theorem Exchange.continues {verb : Verb} {options : CimapOptions} {w₁ w₂ w₃ : World}
    (first : Exchange verb options w₁ w₂) (second : Continues w₂ w₃) :
    Exchange verb options w₁ w₃ := by
  obtain ⟨queue, sent, rest, trace, quiet⟩ := first
  obtain ⟨queue', rest', trace', quiet'⟩ := second
  refine ⟨queue'.trans queue, sent, rest ++ rest', ?_, ?_⟩
  · rw [trace', trace, List.append_assoc, List.cons_append]
  · intro event member
    rcases List.mem_append.mp member with front | back
    · exact quiet event front
    · exact quiet' event back

theorem write_continues (event : Bytes → Event) (buf : Bytes) (w : World)
    (quiet : ∀ sent, (event sent).endsDialogue = false) :
    Ensures (write server event buf) w (fun _ => Exchange.Continues w)
      (fun _ => Exchange.Continues w) :=
  ⟨rfl, _, rfl, by simp [quiet]⟩

theorem read_continues (readBuf : Bytes) (w : World) :
    Ensures (read server readBuf) w (fun _ => Exchange.Continues w)
      (fun _ => Exchange.Continues w) := by
  rw [Ensures, read]
  cases server.reads w.readCount with
  | none => exact ⟨rfl, [], by simp, by simp⟩
  | some response => exact ⟨rfl, _, rfl, by simp [Event.endsDialogue]⟩

theorem sendCommand_exchange (verb : Verb) (options : CimapOptions) (writeBuf : Bytes) (w : World) :
    Ensures (sendCommand server verb options writeBuf) w (fun _ => Exchange verb options w)
      (fun _ => Exchange verb options w) := by
  have sent : Ensures (write server (.command verb options) writeBuf) w
      (fun _ => Exchange verb options w) (fun _ => Exchange verb options w) :=
    ⟨rfl, _, [], rfl, by simp⟩
  refine Ensures.bind _ sent fun ret w' exchange => ?_
  split
  · exact exchange
  · exact exchange

variable {server} in
/-- A program that runs after a command was sent, and sends no other. -/
theorem Exchange.bind {α β : Type} {verb : Verb} {options : CimapOptions} {m : Imap α}
    {f : α → Imap β} {w : World}
    (first : Ensures m w (fun _ => Exchange verb options w) (fun _ => Exchange verb options w))
    (second : ∀ a w', Ensures (f a) w' (fun _ => Continues w') (fun _ => Continues w')) :
    Ensures (m >>= f) w (fun _ => Exchange verb options w) (fun _ => Exchange verb options w) :=
  Ensures.bind _ first fun a w' here => (second a w').mono
    (fun _ _ later => here.continues later) (fun _ _ later => here.continues later)

variable {server} in
theorem Exchange.Continues.bind {α β : Type} {m : Imap α} {f : α → Imap β} {w : World}
    (first : Ensures m w (fun _ => Continues w) (fun _ => Continues w))
    (second : ∀ a w', Ensures (f a) w' (fun _ => Continues w') (fun _ => Continues w')) :
    Ensures (m >>= f) w (fun _ => Continues w) (fun _ => Continues w) :=
  Ensures.bind _ first fun a w' here => (second a w').mono
    (fun _ _ later => here.trans later) (fun _ _ later => here.trans later)

theorem performWelcome_continues (w : World) :
    Ensures (performWelcome server) w (fun _ => Exchange.Continues w)
      (fun _ => Exchange.Continues w) :=
  Exchange.Continues.bind (read_continues server emptyBuffer w) fun _ w' => .refl w'

theorem performLine_exchange (verb : Verb) (options : CimapOptions) (writeBuf : Bytes) (w : World) :
    Ensures (performLine server verb options writeBuf) w (fun _ => Exchange verb options w)
      (fun _ => Exchange verb options w) :=
  Exchange.bind (sendCommand_exchange server verb options writeBuf w) fun _ w' =>
    Exchange.Continues.bind (read_continues server emptyBuffer w') fun _ w'' => .refl w''

theorem appendLiteral_continues (rounds : Nat) (bufp : Bytes) (w : World) :
    Ensures (appendLiteral server rounds bufp) w (fun _ => Exchange.Continues w)
      (fun _ => Exchange.Continues w) := by
  induction rounds generalizing bufp w with
  | zero => exact .refl w
  | succ rounds ih =>
    refine Exchange.Continues.bind (write_continues server _ bufp w fun _ => rfl) fun ret w' => ?_
    cases ret with
    | none => exact .refl w'
    | some ret =>
      simp only
      split
      · exact .refl w'
      · split
        · exact ih _ w'
        · exact .refl w'

theorem performAppend_exchange (options : CimapOptions) (w : World) :
    Ensures (performAppend server options) w (fun _ => Exchange .append options w)
      (fun _ => Exchange .append options w) := by
  refine Exchange.bind (sendCommand_exchange server .append options _ w) fun _ w₁ => ?_
  refine Exchange.Continues.bind (read_continues server emptyBuffer w₁) fun readBuf w₂ => ?_
  refine Exchange.Continues.bind (appendLiteral_continues server _ _ w₂) fun written w₃ => ?_
  split
  · refine Exchange.Continues.bind (write_continues server _ _ w₃ fun _ => rfl) fun _ w₄ => ?_
    exact Exchange.Continues.bind (read_continues server readBuf w₄) fun _ w₅ => .refl w₅
  · exact .refl w₃

theorem logoutLoop_continues (rounds : Nat) (readBuf : Bytes) (w : World) :
    Ensures (logoutLoop server rounds readBuf) w (fun _ => Exchange.Continues w)
      (fun _ => Exchange.Continues w) := by
  induction rounds generalizing readBuf w with
  | zero => exact .refl w
  | succ rounds ih =>
    refine Exchange.Continues.bind (read_continues server readBuf w) fun readBuf' w' => ?_
    split
    · exact ih readBuf' w'
    · exact .refl w'

theorem performLogout_exchange (rounds : Nat) (w : World) :
    Ensures (performLogout server rounds) w (fun _ => Exchange .logout {} w)
      (fun _ => Exchange .logout {} w) :=
  Exchange.bind (sendCommand_exchange server .logout {} logoutLine w) fun _ w' =>
    logoutLoop_continues server rounds emptyBuffer w'

end Zn
