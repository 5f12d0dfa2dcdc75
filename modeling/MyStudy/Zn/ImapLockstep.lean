import Mathlib.Data.List.Infix
import MyStudy.Lib.Transition
import MyStudy.Zn.Cimap

/-!
# Client and server in step

A server sends a greeting, and for each command untagged lines and one tagged line. TCP hands this
stream to the client in any pieces. The client is in step when every command returns with all of its
response read.
-/
namespace Zn

open Program Transition

/-! ### The server -/

/-- A line without its end. -/
def isLine (line : Bytes) : Bool := line.all fun c => c != 0 && c != 10 && c != 13

/-- A line that no command's tag is in front of: a response on the way, or a request to go on. -/
def isUntagged (line : Bytes) : Bool :=
  isLine line && (line.head? = some '*'.toUInt8 || line.head? = some '+'.toUInt8)

/-- What is said to a command: untagged lines, then a tagged one with this status. -/
structure TaggedResponse where
  untagged : List Bytes
  status : Bytes
  untagged_lines : ∀ line ∈ untagged, isUntagged line = true
  status_line : isLine status = true

def TaggedResponse.text (r : TaggedResponse) : Bytes :=
  (r.untagged ++ [cimapTag ++ ascii " " ++ r.status]).flatMap (· ++ cimapCmdEnd)

/-- A server, in one run: the greeting, and the response to each command. -/
structure ImapServer where
  greeting : Bytes
  respond : Nat → TaggedResponse
  greeting_line : isUntagged greeting = true

/-- The stream up to the response to the last of so many commands. -/
def ImapServer.stream (imap : ImapServer) (commands : Nat) : Bytes :=
  imap.greeting ++ cimapCmdEnd ++ (List.range commands).flatMap fun k => (imap.respond k).text

/-! ### The trace -/

def Event.isCommand : Event → Bool
  | .command .. => true
  | _ => false

def Event.bytesRead : Event → Bytes
  | .received response => response
  | _ => []

def commandsIn (trace : List Event) : Nat := trace.countP Event.isCommand

def receivedIn (trace : List Event) : Bytes := trace.flatMap Event.bytesRead

/-- At any time what was read is the beginning of what the server has sent, and no `read` came back
with nothing. -/
structure Conforming (imap : ImapServer) (trace : List Event) : Prop where
  some_ : ∀ event ∈ trace, event ≠ .received []
  within : ∀ front ∈ trace.inits, receivedIn front <+: imap.stream (commandsIn front)

/-- All that the server has sent has been read, once a command has returned. -/
def InStep (imap : ImapServer) (w : World) : Prop :=
  w.trace ≠ [] → receivedIn w.trace = imap.stream (commandsIn w.trace)

/-! ### The client -/

inductive ImapCommand where
  | welcome
  | login (options : CimapOptions)
  | create (options : CimapOptions)
  | append (options : CimapOptions)
  | logout
  deriving DecidableEq, Repr

namespace ImapCommand

def perform (server : Server) (rounds : Nat) : ImapCommand → Imap Bool
  | welcome => performWelcome server
  | login options => performLogin server options
  | create options => performCreate server options
  | append options => performAppend server options
  | logout => performLogout server rounds

/-- Whether a line is sent. -/
def lines : ImapCommand → Nat
  | welcome => 0
  | _ => 1

end ImapCommand

/-- A command that returns takes the session to its next state. -/
def imapStep (server : Server) (rounds : Nat) (w : World) (command : ImapCommand) : Option World :=
  match command.perform server rounds w with
  | .ok _ w' => some w'
  | .error _ _ => none

def imapStart : World := ⟨0, 0, [], []⟩

/-! ### What the reads of a command have to be -/

/-- No write of the literal takes nothing. -/
def Server.takesLiteral (server : Server) : Nat → Nat → Bytes → Bool
  | 0, _, _ => true
  | rounds + 1, call, bufp =>
    match (server.writes call bufp.length).map Fin.val with
    | none => true
    | some ret =>
      if ret = 0 then false
      else if ret < bufp.length then takesLiteral server rounds (call + 1) (bufp.drop ret)
      else true

/-- What is still to be read when the line of the command has been sent. -/
def ImapServer.pending (imap : ImapServer) (w : World) (command : ImapCommand) : Bytes :=
  (imap.stream (commandsIn w.trace + command.lines)).drop (receivedIn w.trace).length

/-- The response comes in one read; in two to an APPEND whose literal is written; and at the end
the tag may come in a read of its own. -/
def Answered (server : Server) (imap : ImapServer) (w : World) (command : ImapCommand) : Prop :=
  match command with
  | .append options =>
    if server.takesLiteral (options.literal.length + 1) (w.writeCount + 1) options.literal then
      ∃ first second, server.reads w.readCount = some first ∧
        server.reads (w.readCount + 1) = some second ∧ first ++ second = imap.pending w command
    else server.reads w.readCount = some (imap.pending w command)
  | .logout =>
    server.reads w.readCount = some (imap.pending w command) ∨
      server.reads w.readCount = some cimapTag ∧
        ∃ rest, server.reads (w.readCount + 1) = some rest ∧
          cimapTag ++ rest = imap.pending w command
  | _ => server.reads w.readCount = some (imap.pending w command)

/-! ### What one command does -/

/-- The reads of the loop in LOGOUT. -/
inductive LogoutGets (server : Server) : Nat → Bytes → List Bytes → Prop
  | last (call : Nat) (readBuf chunk : Bytes) (got : server.reads call = some chunk)
      (other : cstr (chunk ++ readBuf.drop chunk.length) ≠ cimapTag) :
      LogoutGets server call readBuf [chunk]
  | more (call : Nat) (readBuf chunk : Bytes) (chunks : List Bytes)
      (got : server.reads call = some chunk)
      (tag : cstr (chunk ++ readBuf.drop chunk.length) = cimapTag)
      (later : LogoutGets server (call + 1) (chunk ++ readBuf.drop chunk.length) chunks) :
      LogoutGets server call readBuf (chunk :: chunks)

/-- The reads a command makes before it returns. -/
def Gets (server : Server) (w : World) (command : ImapCommand) (chunks : List Bytes) : Prop :=
  match command with
  | .append options =>
    if server.takesLiteral (options.literal.length + 1) (w.writeCount + 1) options.literal then
      ∃ first second, server.reads w.readCount = some first ∧
        server.reads (w.readCount + 1) = some second ∧ chunks = [first, second]
    else ∃ first, server.reads w.readCount = some first ∧ chunks = [first]
  | .logout => LogoutGets server w.readCount emptyBuffer chunks
  | _ => ∃ first, server.reads w.readCount = some first ∧ chunks = [first]

/-- The worlds before and after a command that sent so many lines and read these chunks. -/
structure Performed (lines : Nat) (chunks : List Bytes) (w w' : World) : Prop where
  grew : w'.trace ≠ []
  commands : commandsIn w'.trace = commandsIn w.trace + lines
  received : receivedIn w'.trace = receivedIn w.trace ++ chunks.flatten
  among : ∀ chunk ∈ chunks, .received chunk ∈ w'.trace

@[simp] theorem commandsIn_nil : commandsIn [] = 0 := rfl

@[simp] theorem commandsIn_cons (event : Event) (trace : List Event) :
    commandsIn (event :: trace) = commandsIn trace + if event.isCommand then 1 else 0 :=
  List.countP_cons

@[simp] theorem commandsIn_append (front back : List Event) :
    commandsIn (front ++ back) = commandsIn front + commandsIn back := List.countP_append

@[simp] theorem receivedIn_nil : receivedIn [] = [] := rfl

@[simp] theorem receivedIn_cons (event : Event) (trace : List Event) :
    receivedIn (event :: trace) = event.bytesRead ++ receivedIn trace := List.flatMap_cons

@[simp] theorem receivedIn_append (front back : List Event) :
    receivedIn (front ++ back) = receivedIn front ++ receivedIn back := List.flatMap_append

@[simp] theorem commandsIn_literals (pieces : List Bytes) :
    commandsIn (pieces.map Event.literal) = 0 := by
  induction pieces with
  | nil => rfl
  | cons piece pieces ih => simp [ih, Event.isCommand]

@[simp] theorem receivedIn_literals (pieces : List Bytes) :
    receivedIn (pieces.map Event.literal) = [] := by
  induction pieces with
  | nil => rfl
  | cons piece pieces ih => simp [ih, Event.bytesRead]

@[simp] theorem commandsIn_responses (chunks : List Bytes) :
    commandsIn (chunks.map Event.received) = 0 := by
  induction chunks with
  | nil => rfl
  | cons chunk chunks ih => simp [ih, Event.isCommand]

@[simp] theorem receivedIn_responses (chunks : List Bytes) :
    receivedIn (chunks.map Event.received) = chunks.flatten := by
  induction chunks with
  | nil => rfl
  | cons chunk chunks ih => simp [ih, Event.bytesRead]

section Reads

variable (server : Server)

/-- The events of a command: its line, if it has one, and then none of another. -/
theorem performed_of_trace (lines : Nat) (chunks : List Bytes) (w w' : World)
    (events : List Event) (trace : w'.trace = w.trace ++ events) (some_ : events ≠ [])
    (counted : commandsIn events = lines) (read : receivedIn events = chunks.flatten)
    (among : ∀ chunk ∈ chunks, .received chunk ∈ events) :
    Performed lines chunks w w' := by
  constructor
  · simp [trace, some_]
  · rw [trace, commandsIn_append, counted]
  · rw [trace, receivedIn_append, read]
  · intro chunk member
    rw [trace]
    exact List.mem_append_right _ (among chunk member)

theorem performWelcome_gets (w : World) :
    Ensures (performWelcome server) w
      (fun _ w' => ∃ chunks, Gets server w .welcome chunks ∧ Performed 0 chunks w w')
      (fun _ _ => True) := by
  rw [performWelcome, ensures_bind]
  apply ensures_read server
  · intro chunk got
    exact ⟨[chunk], ⟨chunk, got, rfl⟩,
      performed_of_trace 0 _ w _ [.received chunk] rfl (by simp) rfl
      (by simp [Event.bytesRead]) (by simp)⟩
  · exact fun _ => trivial

theorem performLine_gets (verb : Verb) (options : CimapOptions) (writeBuf : Bytes) (w : World)
    (some_ : writeBuf ≠ []) :
    Ensures (performLine server verb options writeBuf) w
      (fun _ w' => ∃ chunk, server.reads w.readCount = some chunk ∧ Performed 1 [chunk] w w')
      (fun _ _ => True) := by
  rw [performLine, ensures_bind]
  apply ensures_sendCommand server some_
  · intro _
    rw [ensures_bind]
    apply ensures_read server
    · intro chunk got
      exact ⟨chunk, got, performed_of_trace 1 _ w _
        [.command verb options writeBuf, .received chunk]
        (by simp [World.receives, World.wrote]) (by simp) rfl
        (by simp [Event.bytesRead]) (by simp)⟩
    · exact fun _ => trivial
  · exact fun _ => trivial

/-- The literal is written in pieces, without a read. -/
theorem appendLiteral_takes (rounds : Nat) (bufp : Bytes) (w : World) :
    Ensures (appendLiteral server rounds bufp) w
      (fun written w' => written = server.takesLiteral rounds w.writeCount bufp ∧
        w'.readCount = w.readCount ∧
          ∃ pieces : List Bytes, w'.trace = w.trace ++ pieces.map Event.literal)
      (fun _ _ => True) := by
  induction rounds generalizing bufp w with
  | zero => exact ⟨rfl, rfl, [], by simp⟩
  | succ rounds ih =>
    refine Ensures.bind (fun ret w' => ret = (server.writes w.writeCount bufp.length).map Fin.val ∧
      w'.readCount = w.readCount ∧ w'.writeCount = w.writeCount + 1 ∧
        ∃ piece, w'.trace = w.trace ++ [.literal piece]) ⟨rfl, rfl, rfl, _, rfl⟩ ?_
    rintro ret w' ⟨wrote, reads, writes, piece, trace⟩
    rw [Server.takesLiteral, ← wrote]
    cases ret with
    | none => exact ⟨rfl, reads, [piece], trace⟩
    | some ret =>
      simp only
      split
      · exact ⟨rfl, reads, [piece], trace⟩
      · split
        -- the rest is written in the next round
        · apply (ih (bufp.drop ret) w').mono
          · rintro written w'' ⟨taken, reads', pieces, trace'⟩
            rw [writes] at taken
            exact ⟨taken, reads'.trans reads, piece :: pieces, by simp [trace', trace]⟩
          · exact fun _ _ _ => trivial
        · exact ⟨rfl, reads, [piece], trace⟩

theorem performAppend_gets (options : CimapOptions) (w : World) :
    Ensures (performAppend server options) w
      (fun _ w' => ∃ chunks, Gets server w (.append options) chunks ∧ Performed 1 chunks w w')
      (fun _ _ => True) := by
  have notEmpty : appendLine options ≠ [] := by simp [appendLine, cimapTag, ascii]
  rw [performAppend, ensures_bind]
  apply ensures_sendCommand server notEmpty _ fun _ => trivial
  intro _
  rw [ensures_bind]
  apply ensures_read server _ fun _ => trivial
  intro first got
  apply Ensures.bind _ (appendLiteral_takes server _ _ _)
  rintro written w₁ ⟨taken, reads, pieces, trace⟩
  -- the trace when the literal is written
  have before : w₁.trace = w.trace ++
      (.command .append options (appendLine options) :: .received first ::
        pieces.map Event.literal) := by
    rw [trace]
    simp [World.receives, World.wrote]
  have taken : written = server.takesLiteral (options.literal.length + 1) (w.writeCount + 1)
      options.literal := taken
  have reads : w₁.readCount = w.readCount + 1 := reads
  split
  -- the CRLF behind the literal, and the second read
  next all =>
    rw [ensures_bind]
    apply ensures_write server
    rw [ensures_bind]
    apply ensures_read server _ fun _ => trivial
    intro second got'
    have next : server.reads (w.readCount + 1) = some second := by rw [← reads]; exact got'
    apply Exists.intro [first, second]
    constructor
    · simp only [Gets]
      rw [← taken, if_pos all]
      exact ⟨first, second, got, next, rfl⟩
    · apply performed_of_trace 1 _ w _ (.command .append options (appendLine options) ::
        .received first :: (pieces.map Event.literal ++ [_, .received second]))
        (by simp [World.receives, World.wrote, before]; rfl) (by simp)
      · simp [Event.isCommand]
      · simp [Event.bytesRead]
      · simp
  -- a write that took nothing: the command returns at once
  next short =>
    apply Exists.intro [first]
    constructor
    · simp only [Gets]
      rw [← taken, if_neg short]
      exact ⟨first, got, rfl⟩
    · apply performed_of_trace 1 _ w w₁ _ before (by simp)
      · simp [Event.isCommand]
      · simp [Event.bytesRead]
      · simp

/-- The loop reads on as long as it finds no more than the tag. -/
theorem logoutLoop_gets (rounds : Nat) (readBuf : Bytes) (w : World) :
    Ensures (logoutLoop server rounds readBuf) w
      (fun _ w' => ∃ chunks, LogoutGets server w.readCount readBuf chunks ∧
        w'.trace = w.trace ++ chunks.map Event.received) (fun _ _ => True) := by
  induction rounds generalizing readBuf w with
  | zero => trivial
  | succ rounds ih =>
    rw [logoutLoop, ensures_bind]
    apply ensures_read server _ fun _ => trivial
    intro chunk got
    split
    next tag =>
      apply (ih _ (w.receives chunk)).mono _ fun _ _ _ => trivial
      rintro _ w' ⟨chunks, later, trace⟩
      exact ⟨chunk :: chunks, .more _ _ _ _ got tag later, by simp [trace, World.receives]⟩
    next other => exact ⟨[chunk], .last _ _ _ got other, by simp [World.receives]⟩

theorem performLogout_gets (rounds : Nat) (w : World) :
    Ensures (performLogout server rounds) w
      (fun _ w' => ∃ chunks, Gets server w .logout chunks ∧ Performed 1 chunks w w')
      (fun _ _ => True) := by
  rw [performLogout, ensures_bind]
  apply ensures_sendCommand server (by decide) _ fun _ => trivial
  intro _
  apply (logoutLoop_gets server rounds emptyBuffer _).mono _ fun _ _ _ => trivial
  rintro _ w' ⟨chunks, gets, trace⟩
  apply Exists.intro chunks
  apply And.intro gets
  apply performed_of_trace 1 _ w w' (.command .logout {} logoutLine :: chunks.map Event.received)
    (by simp [trace, World.wrote]) (by simp)
  · simp [Event.isCommand]
  · simp [Event.bytesRead]
  · simp

/-- Every command that returns has made the reads that belong to it. -/
theorem imapStep_gets (rounds : Nat) (w w' : World) (command : ImapCommand)
    (stepped : imapStep server rounds w command = some w') :
    ∃ chunks, Gets server w command chunks ∧ Performed command.lines chunks w w' := by
  -- the reads of each command, as long as none throws
  have ran : Ensures (command.perform server rounds) w
      (fun _ w' => ∃ chunks, Gets server w command chunks ∧ Performed command.lines chunks w w')
      (fun _ _ => True) := by
    cases command with
    | welcome => exact performWelcome_gets server w
    | login options =>
      apply (performLine_gets server .login options (loginLine options) w (by
        simp [loginLine, cimapTag, ascii])).mono _ fun _ _ _ => trivial
      rintro _ w' ⟨chunk, got, performed⟩
      exact ⟨[chunk], ⟨chunk, got, rfl⟩, performed⟩
    | create options =>
      apply (performLine_gets server .create options (createLine options) w (by
        simp [createLine, cimapTag, ascii])).mono _ fun _ _ _ => trivial
      rintro _ w' ⟨chunk, got, performed⟩
      exact ⟨[chunk], ⟨chunk, got, rfl⟩, performed⟩
    | append options => exact performAppend_gets server options w
    | logout => exact performLogout_gets server rounds w
  rw [Ensures] at ran
  rw [imapStep] at stepped
  cases result : command.perform server rounds w with
  | error e t => simp [result] at stepped
  | ok b t =>
    rw [result] at ran stepped
    obtain rfl : t = w' := Option.some.inj stepped
    exact ran

end Reads

/-! ### The stream -/

theorem stream_succ (imap : ImapServer) (commands : Nat) :
    imap.stream (commands + 1) = imap.stream commands ++ (imap.respond commands).text := by
  simp [ImapServer.stream, List.range_succ]

theorem nul_notMem_lines (lines : List Bytes) (plain : ∀ line ∈ lines, isLine line = true) :
    0 ∉ lines.flatMap (· ++ cimapCmdEnd) := by
  intro member
  obtain ⟨line, among, here⟩ := List.mem_flatMap.mp member
  rcases List.mem_append.mp here with inside | behind
  · have all := List.all_eq_true.mp (plain line among) 0 inside
    simp at all
  · exact absurd behind (by decide)

theorem TaggedResponse.isLine_of_mem (r : TaggedResponse) :
    ∀ line ∈ r.untagged ++ [cimapTag ++ ascii " " ++ r.status], isLine line = true := by
  intro line member
  rcases List.mem_append.mp member with untagged | tagged
  · have parts := r.untagged_lines line untagged
    rw [isUntagged, Bool.and_eq_true] at parts
    exact parts.1
  · rw [List.mem_singleton.mp tagged, isLine, List.all_append, Bool.and_eq_true]
    exact ⟨by decide, r.status_line⟩

theorem ImapServer.nul_notMem_stream (imap : ImapServer) (commands : Nat) :
    0 ∉ imap.stream commands := by
  have greeting : 0 ∉ imap.greeting ++ cimapCmdEnd := by
    have line := imap.greeting_line
    rw [isUntagged, Bool.and_eq_true] at line
    simpa using nul_notMem_lines [imap.greeting] (by simpa using line.1)
  induction commands with
  | zero => simpa [stream] using greeting
  | succ commands ih =>
    rw [stream_succ, List.mem_append, not_or]
    exact ⟨ih, nul_notMem_lines _ (imap.respond commands).isLine_of_mem⟩

/-- A text begins like an untagged line, or with the tag and its space. -/
def Begins (text : Bytes) : Prop := text.head? ≠ cimapTag.head? ∨ cimapTag ++ ascii " " <+: text

theorem begins_untagged (line rest : Bytes) (untagged : isUntagged line = true) :
    Begins (line ++ rest) := by
  rw [isUntagged, Bool.and_eq_true, Bool.or_eq_true, decide_eq_true_eq, decide_eq_true_eq]
    at untagged
  left
  rcases untagged.2 with star | plus
  · rw [List.head?_append, star, Option.some_or]
    decide
  · rw [List.head?_append, plus, Option.some_or]
    decide

theorem TaggedResponse.begins (r : TaggedResponse) : Begins r.text := by
  rw [text]
  cases lines : r.untagged with
  | nil =>
    right
    exact ⟨r.status ++ cimapCmdEnd, by simp⟩
  | cons line more =>
    rw [List.cons_append, List.flatMap_cons, List.append_assoc]
    exact begins_untagged line _ (r.untagged_lines line (by simp [lines]))

/-- A client that is in step has the response to its next command in front of it. -/
theorem pending_begins (imap : ImapServer) (w : World) (inStep : InStep imap w) :
    Begins (imap.pending w .logout) := by
  rw [ImapServer.pending, show ImapCommand.logout.lines = 1 from rfl]
  by_cases fresh : w.trace = []
  -- or the greeting, if it has not read anything
  · rw [fresh, ImapServer.stream, List.append_assoc]
    exact begins_untagged imap.greeting _ imap.greeting_line
  · rw [inStep fresh, stream_succ, List.drop_left]
    exact (imap.respond _).begins

/-! ### Being in step -/

/-- The client is in step if a command read what there was to read. -/
theorem inStep_iff (imap : ImapServer) (w w' : World) (command : ImapCommand) (chunks : List Bytes)
    (performed : Performed command.lines chunks w w') (conforms : Conforming imap w'.trace) :
    chunks.flatten <+: imap.pending w command ∧
      (InStep imap w' ↔ chunks.flatten = imap.pending w command) := by
  have within := conforms.within w'.trace (by simp)
  rw [performed.received, performed.commands] at within
  obtain ⟨rest, whole⟩ := within
  -- what conforms leaves a rest, and the client is in step if that is empty
  have pending : imap.pending w command = chunks.flatten ++ rest := by
    rw [ImapServer.pending, ← whole, List.append_assoc, List.drop_left]
  apply And.intro ⟨rest, pending.symm⟩
  rw [pending, InStep, performed.received, performed.commands, ← whole]
  constructor
  · intro same
    have none_ : rest = [] := by simpa using same performed.grew
    rw [none_, List.append_nil]
  · intro same _
    have none_ : rest = [] := by simpa using same
    rw [none_, List.append_nil]

theorem cstr_append (text rest : Bytes) (clean : 0 ∉ text) :
    cstr (text ++ rest) = text ++ cstr rest := by
  rw [cstr, List.takeWhile_append_of_pos]
  · rfl
  · intro c member
    rw [bne_iff_ne]
    exact fun zero => clean (zero ▸ member)

theorem cstr_emptyBuffer (chunk : Bytes) (clean : 0 ∉ chunk) :
    cstr (chunk ++ emptyBuffer.drop chunk.length) = chunk := by
  rw [cstr_append chunk _ clean, emptyBuffer, List.drop_replicate]
  cases maxBuffer - chunk.length <;> simp [cstr, List.replicate_succ]

theorem logoutGets_iff (server : Server) (call : Nat) (chunks : List Bytes) (pending : Bytes)
    (gets : LogoutGets server call emptyBuffer chunks) (clean : 0 ∉ pending)
    (begins : Begins pending) (front : chunks.flatten <+: pending)
    (some_ : ∀ chunk ∈ chunks, chunk ≠ []) :
    chunks.flatten = pending ↔
      server.reads call = some pending ∨
        server.reads call = some cimapTag ∧
          ∃ rest, server.reads (call + 1) = some rest ∧ cimapTag ++ rest = pending := by
  have plain (text : Bytes) (part : text <:+: pending) : 0 ∉ text := fun zero =>
    clean (part.subset zero)
  cases gets with
  | last _ _ chunk got other =>
    -- a read that is not the bare tag is the only one
    rw [List.flatten_singleton] at front ⊢
    rw [cstr_emptyBuffer chunk (plain chunk front.isInfix)] at other
    simp [got, other]
  | more _ _ chunk chunks got tag later =>
    rw [List.flatten_cons] at front ⊢
    have first : chunk <+: pending := (List.prefix_append chunk _).trans front
    rw [cstr_emptyBuffer chunk (plain chunk first.isInfix)] at tag
    subst tag
    cases later with
    | last _ _ second got' other =>
      rw [List.flatten_singleton] at front ⊢
      -- the response is more than the tag, so one read was not enough
      have longer : cimapTag ≠ pending := by
        rintro rfl
        have length := front.length_le
        rw [List.length_append] at length
        exact some_ second (by simp) (List.length_eq_zero_iff.mp (by omega))
      simp [got, got', longer]
    | more _ _ second chunks got' tag later =>
      -- behind the tag comes a space, and so the loop ends
      obtain ⟨c, rest, rfl⟩ := List.exists_cons_of_ne_nil (some_ second (by simp))
      obtain ⟨behind, whole⟩ := front
      have space : c = ' '.toUInt8 := by
        rcases begins with other | spaced
        · exact absurd (by rw [← whole]; rfl) other
        · obtain ⟨behind', whole'⟩ := spaced
          have same := whole.trans whole'.symm
          rw [List.append_assoc, List.append_assoc, List.append_cancel_left_eq] at same
          exact (List.cons.inj same).1
      rw [space, List.cons_append, cstr, List.takeWhile_cons_of_pos (by decide)] at tag
      exact absurd (List.cons.inj tag).1 (by decide)

/-- Among conforming servers, a command keeps the client in step just when it is answered in the
reads it makes. -/
theorem inStep_iff_answered (server : Server) (rounds : Nat) (imap : ImapServer) (w w' : World)
    (command : ImapCommand) (conforms : Conforming imap w'.trace)
    (stepped : imapStep server rounds w command = some w') (inStep : InStep imap w) :
    InStep imap w' ↔ Answered server imap w command := by
  obtain ⟨chunks, gets, performed⟩ := imapStep_gets server rounds w w' command stepped
  obtain ⟨front, iff⟩ := inStep_iff imap w w' command chunks performed conforms
  rw [iff]
  cases command with
  | welcome =>
    obtain ⟨first, got, rfl⟩ := gets
    simp [Answered, got]
  | login options =>
    obtain ⟨first, got, rfl⟩ := gets
    simp [Answered, got]
  | create options =>
    obtain ⟨first, got, rfl⟩ := gets
    simp [Answered, got]
  | append options =>
    simp only [Gets] at gets
    simp only [Answered]
    split at gets
    next all =>
      obtain ⟨first, second, got, got', rfl⟩ := gets
      simp [all, got, got']
    -- a literal that is not taken whole ends the command behind its first read
    next short =>
      obtain ⟨first, got, rfl⟩ := gets
      simp [short, got]
  | logout =>
    -- LOGOUT reads on as long as a read is but the tag, so the chunks decide what it takes
    apply logoutGets_iff server w.readCount chunks _ gets
    · intro zero
      exact imap.nul_notMem_stream _ (List.mem_of_mem_drop zero)
    · exact pending_begins imap w inStep
    · exact front
    · intro chunk member none_
      exact conforms.some_ _ (performed.among chunk member) (by rw [none_])

/-- A session is in step after each of its commands just when each is answered in the reads it
makes. -/
theorem lockstep_iff (server : Server) (rounds : Nat) (imap : ImapServer)
    (commands : List ImapCommand)
    (conforms : Throughout (imapStep server rounds) (fun w => Conforming imap w.trace) imapStart
      commands) :
    Throughout (imapStep server rounds) (InStep imap) imapStart commands ↔
      EachStep (imapStep server rounds) (Answered server imap) imapStart commands := by
  apply Throughout.iff_eachStep _ imapStart commands conforms
  · exact fun fresh => absurd rfl fresh
  · intro w command w' _ conforms' stepped inStep
    exact inStep_iff_answered server rounds imap w w' command conforms' stepped inStep

/-! ### Two sessions -/

instance (imap : ImapServer) (trace : List Event) : Decidable (Conforming imap trace) :=
  decidable_of_iff ((∀ event ∈ trace, event ≠ .received []) ∧
      ∀ front ∈ trace.inits, receivedIn front <+: imap.stream (commandsIn front))
    ⟨fun both => ⟨both.1, both.2⟩, fun conforms => ⟨conforms.some_, conforms.within⟩⟩

instance (imap : ImapServer) : DecidablePred fun w : World => Conforming imap w.trace :=
  fun w => inferInstanceAs (Decidable (Conforming imap w.trace))

instance (imap : ImapServer) : DecidablePred (InStep imap) :=
  fun w => inferInstanceAs (Decidable (w.trace ≠ [] → _))

theorem length_getD_le (segments : List Bytes) (fit : ∀ s ∈ segments, s.length ≤ maxBuffer)
    (call : Nat) : (segments.getD call []).length ≤ maxBuffer := by
  rw [List.getD_eq_getElem?_getD]
  cases found : segments[call]? with
  | none => exact Nat.zero_le _
  | some s => exact fit s (List.mem_of_getElem? found)

/-- The stream in these segments, and writes that are complete. -/
def Server.ofSegments (segments : List Bytes) (fit : ∀ s ∈ segments, s.length ≤ maxBuffer) :
    Server :=
  .reliable (fun call => segments.getD call []) (length_getD_le segments fit)

/-- A server that says a line before it answers a LOGIN. -/
def capableServer : ImapServer where
  greeting := ascii "* OK ready"
  respond
    | 0 => ⟨[ascii "* CAPABILITY IMAP4"], ascii "OK in", by decide, by decide⟩
    | 1 => ⟨[ascii "+ go on"], ascii "OK kept", by decide, by decide⟩
    | _ => ⟨[], ascii "OK out", by decide, by decide⟩
  greeting_line := by decide

def shortSession : List ImapCommand :=
  [.welcome, .login {}, .append { literal := ascii "mail" }, .logout]

def wholeResponses : Server :=
  .ofSegments [ascii "* OK ready\r\n", ascii "* CAPABILITY IMAP4\r\n00 OK in\r\n",
    ascii "+ go on\r\n",
    ascii "00 OK kept\r\n", ascii "00", ascii " OK out\r\n"] (by decide)

theorem lockstep_whole :
    Throughout (imapStep wholeResponses 2) (InStep capableServer) imapStart shortSession ↔
      EachStep (imapStep wholeResponses 2) (Answered wholeResponses capableServer) imapStart
        shortSession :=
  lockstep_iff wholeResponses 2 capableServer shortSession (by decide +kernel)

/-- The same stream, with the lines of the first response apart. -/
def lineByLine : Server :=
  .ofSegments [ascii "* OK ready\r\n", ascii "* CAPABILITY IMAP4\r\n", ascii "00 OK in\r\n",
    ascii "+ go on\r\n", ascii "00 OK kept\r\n"] (by decide)

/-- The LOGIN returns with the untagged line, and from then on every command takes the response of
the one before it. -/
theorem falls_out_of_step :
    ¬ ∀ (server : Server) (rounds : Nat) (imap : ImapServer) (commands : List ImapCommand),
      Throughout (imapStep server rounds) (fun w => Conforming imap w.trace) imapStart commands →
        Throughout (imapStep server rounds) (InStep imap) imapStart commands := by
  intro claim
  have inStep := claim lineByLine 2 capableServer shortSession (by decide +kernel)
  exact absurd inStep (by decide +kernel)

end Zn
