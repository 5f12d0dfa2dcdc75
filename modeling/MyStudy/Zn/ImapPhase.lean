import MyStudy.Zn.ImapDialogue
import MyStudy.Zn.MailboxDump

/-!
# The IMAP phase of a migration

The end of `main`: it logs in, creates the folders, appends the mails, logs out and deletes the
row of the account from the migration table. With a server that never fails a call, the trace of
the phase is known event by event.
-/
namespace Zn

open Program

/-- What the phase starts from: whether there is a connection, the account, the lists the filters
left, the files with the mails, and the migration table with the row of the account. -/
structure Migration (ι : Type) where
  connects : Bool
  loginId : Bytes
  userPassword : Bytes
  folders : List FolderInfo
  mailbox : List MailboxEntry
  disk : Disk ι
  queue : List Bytes
  queued : loginId ∈ queue

/-- `delete_data`. -/
def deleteData (loginId : Bytes) : Imap Unit := fun w =>
  .ok () { w with
    trace := w.trace ++ [.deleted loginId]
    queue := w.queue.filter (· ≠ loginId) }

namespace Migration

variable {ι : Type} (m : Migration ι) (server : Server)

def start : World := ⟨0, 0, [], m.queue⟩

def loginOptions : CimapOptions := { username := m.loginId, password := m.userPassword }

def createOptions (it : FolderInfo) : CimapOptions := { mailboxname := it.name }

/-- The options of an APPEND, for an entry and its folder. -/
def appendOptions (target : MailboxEntry × FolderInfo) : CimapOptions where
  mailboxname := target.2.utf7name
  flags := if target.1.metafile.isRead then ascii "(\\Seen)" else []
  literal := m.disk.readfile target.1.mail.filename

def createFolder (it : FolderInfo) : Imap Unit := do
  let _ ← performCreate server (createOptions it)

def appendTarget (target : MailboxEntry × FolderInfo) : Imap Unit := do
  let _ ← performAppend server (m.appendOptions target)

/-- The body of the APPEND loop. -/
def appendEntry (it : MailboxEntry) : Imap Unit :=
  if it.avaliable then
    match getFolderInfo m.folders it.metafile.folderId with
    | .ok info => m.appendTarget server (it, info)
    | .error e => throw (.filter e)
  else return ()

/-- What comes after the connection was made. No exception is caught. -/
def imapPhase (rounds : Nat) : Imap Unit := do
  if m.connects then
    let _ ← performWelcome server
    let _ ← performLogin server m.loginOptions
    m.folders.forM (createFolder server)
    m.mailbox.forM (m.appendEntry server)
    let _ ← performLogout server rounds
    deleteData m.loginId
  else throw .connectFailed

/-! ### The mails that are appended -/

/-- The entries the APPEND loop gets to, with their folders. -/
def appendTargets (folders : List FolderInfo) : List MailboxEntry → List (MailboxEntry × FolderInfo)
  | [] => []
  | it :: rest =>
    if it.avaliable then
      match getFolderInfo folders it.metafile.folderId with
      | .ok info => (it, info) :: appendTargets folders rest
      | .error _ => []
    else appendTargets folders rest

/-- The lookup that ends the loop. -/
def lookupFailure (folders : List FolderInfo) : List MailboxEntry → Option FilterError
  | [] => none
  | it :: rest =>
    if it.avaliable then
      match getFolderInfo folders it.metafile.folderId with
      | .ok _ => lookupFailure folders rest
      | .error e => some e
    else lookupFailure folders rest

/-- How the loop ends. -/
def appendsDone : Option FilterError → Imap Unit
  | none => return ()
  | some e => throw (.filter e)

theorem appendLoop_eq (mailbox : List MailboxEntry) :
    mailbox.forM (m.appendEntry server) = (do
      (appendTargets m.folders mailbox).forM (m.appendTarget server)
      appendsDone (lookupFailure m.folders mailbox)) := by
  induction mailbox with
  | nil => rfl
  | cons it rest ih =>
    rw [List.forM, ih, appendEntry, appendTargets, lookupFailure]
    split
    · cases getFolderInfo m.folders it.metafile.folderId with
      | ok info => simp only [List.forM, bind_assoc]
      | error e => rfl
    · simp only [pure_bind]

/-- If no lookup fails, the loop gets to all available entries. -/
theorem appendTargets_all (folders : List FolderInfo) (mailbox : List MailboxEntry)
    (fine : lookupFailure folders mailbox = none) :
    (appendTargets folders mailbox).map Prod.fst = mailbox.filter (·.avaliable) := by
  induction mailbox with
  | nil => rfl
  | cons it rest ih =>
    rw [lookupFailure] at fine
    rw [appendTargets]
    cases available : it.avaliable with
    | false =>
      rw [available] at fine
      simpa [available] using ih fine
    | true =>
      rw [available] at fine
      cases found : getFolderInfo folders it.metafile.folderId with
      | ok info =>
        rw [found] at fine
        simpa [available] using ih fine
      | error e =>
        rw [found] at fine
        simp at fine

theorem appendTargets_folder (folders : List FolderInfo) (mailbox : List MailboxEntry)
    (target : MailboxEntry × FolderInfo) (member : target ∈ appendTargets folders mailbox) :
    target.2 ∈ folders := by
  induction mailbox with
  | nil => simp [appendTargets] at member
  | cons it rest ih =>
    rw [appendTargets] at member
    split at member
    · cases found : getFolderInfo folders it.metafile.folderId with
      | ok info =>
        rw [found] at member
        rcases List.mem_cons.mp member with rfl | later
        · exact getFolderInfo_found folders _ info found
        · exact ih later
      | error e => rw [found] at member; simp at member
    · exact ih member

/-- The phase up to the last mail that is appended. -/
def sendAll : Imap Unit := do
  let _ ← performWelcome server
  let _ ← performLogin server m.loginOptions
  m.folders.forM (createFolder server)
  (appendTargets m.folders m.mailbox).forM (m.appendTarget server)

/-- The phase behind the last mail: the lookup that fails, or the end of the session. -/
def finish (rounds : Nat) : Imap Unit := do
  appendsDone (lookupFailure m.folders m.mailbox)
  let _ ← performLogout server rounds
  deleteData m.loginId

theorem imapPhase_eq (rounds : Nat) (connects : m.connects = true) :
    m.imapPhase server rounds = (do
      m.sendAll server
      m.finish server rounds) := by
  rw [imapPhase, if_pos connects, sendAll, finish, appendLoop_eq]
  simp only [bind_assoc]

theorem imapPhase_unconnected (rounds : Nat) (lost : m.connects = false) :
    m.imapPhase server rounds = throw .connectFailed := by
  rw [imapPhase, lost]
  rfl

/-! ### With a server that never fails a call -/

section Reliable

variable (responses : Nat → Bytes) (fit : ∀ call, (responses call).length ≤ maxBuffer)

def loginDialogue : Dialogue :=
  lineDialogue responses .login m.loginOptions (loginLine m.loginOptions) 1

def createDialogue (it : FolderInfo) (call : Nat) : Dialogue :=
  lineDialogue responses .create (createOptions it) (createLine (createOptions it)) call

def createDialogues : List Dialogue := loopDialogues (createDialogue responses) 2 m.folders

/-- The dialogues of the APPEND commands, after one response to the connection, one to LOGIN and
one to each CREATE. -/
def appendDialogues : List Dialogue :=
  loopDialogues (fun target => appendDialogue responses (m.appendOptions target))
    (2 + m.folders.length) (appendTargets m.folders m.mailbox)

def dialogues : List Dialogue :=
  m.loginDialogue responses :: (m.createDialogues responses ++ m.appendDialogues responses)

/-- The number of responses before LOGOUT. -/
def logoutCall : Nat := 1 + ((m.dialogues responses).flatMap Dialogue.responses).length

theorem createDialogues_length (call : Nat) (folders : List FolderInfo) :
    ((loopDialogues (createDialogue responses) call folders).flatMap Dialogue.responses).length =
      folders.length := by
  induction folders generalizing call with
  | nil => rfl
  | cons it rest ih =>
    rw [loopDialogues, List.flatMap_cons, List.length_append, ih, List.length_cons, Nat.add_comm]
    rfl

theorem sendAll_ran (E : ImapError → World → Prop) :
    Ensures (m.sendAll (.reliable responses fit)) m.start (fun _ w' =>
      w'.trace = .received (responses 0) :: (m.dialogues responses).flatMap Dialogue.events ∧
        w'.readCount = m.logoutCall responses ∧ w'.queue = m.queue) E := by
  rw [sendAll, performWelcome, ensures_bind, ensures_bind]
  apply ensures_read_reliable responses fit
  rw [ensures_pure]
  have login : loginLine m.loginOptions ≠ [] := by simp [loginLine, cimapTag, ascii]
  have line (it : FolderInfo) : createLine (createOptions it) ≠ [] := by
    simp [createLine, cimapTag, ascii]
  apply Ensures.bind _ (performLine_ran responses fit .login m.loginOptions _ _ E login)
  intro _ w₁ loggedIn
  refine Ensures.bind _ (loop_ran (createFolder _) (createDialogue responses) E ?_ m.folders w₁) ?_
  · intro it w
    exact Ensures.bind _ (performLine_ran responses fit .create _ _ w E (line it))
      fun _ _ ran => ran
  intro _ w₂ created
  refine (loop_ran (m.appendTarget _)
    (fun target => appendDialogue responses (m.appendOptions target)) E ?_
    (appendTargets m.folders m.mailbox) w₂).mono ?_ fun _ _ thrown => thrown
  · intro target w
    exact Ensures.bind _ (performAppend_ran responses fit _ w E) fun _ _ ran => ran
  intro _ w₃ appended
  -- the welcome and LOGIN take a response each, CREATE one for each folder
  have first : w₁.readCount = 2 := loggedIn.2.1
  have second : w₂.readCount = 2 + m.folders.length := by
    rw [created.2.1, createDialogues_length, first]
  rw [first] at created
  rw [second] at appended
  obtain ⟨trace, reads', queue⟩ := loggedIn.trans (created.trans appended)
  refine ⟨?_, reads', queue⟩
  rw [trace]
  rfl

end Reliable

end Migration

/-- A session for one folder with one mail that says hello. -/
def helloMigration (folder : FolderInfo) : Migration Unit where
  connects := true
  loginId := ascii "user"
  userPassword := ascii "password"
  folders := [folder]
  mailbox := [{ MailboxEntry.ofMeta ⟨[], false, [], 300, folder.id⟩ with mail := ⟨ascii "1.eml"⟩ }]
  disk := ⟨fun _ => some (), fun _ => ascii "hello"⟩
  queue := [ascii "user"]
  queued := by decide

def inbox : FolderInfo := ⟨ascii "/Inbox", ascii "/Inbox", 2⟩

end Zn
