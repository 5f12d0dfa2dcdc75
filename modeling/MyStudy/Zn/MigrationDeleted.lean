import MyStudy.Zn.ImapPhase

/-!
# The end of a migration

The row of an account is deleted at the end of the IMAP phase. It ought to stay unless the server
has accepted the login and every mail, but no response is looked at: the row goes whenever the
phase gets that far.
-/
namespace Zn

open Program

def accepts (response : Bytes) : Bool := answers response (ascii "OK")

/-- What the server says to the APPEND commands of these messages: one response to an empty
message, and two to any other. -/
def messageResponses (responses : Nat → Bytes) (call : Nat) : List Bytes → List (List Bytes)
  | [] => []
  | message :: rest =>
    if message = [] then [responses call] :: messageResponses responses (call + 1) rest
    else [responses call, responses (call + 1)] :: messageResponses responses (call + 2) rest

theorem messageResponses_length (responses : Nat → Bytes) (call : Nat) (messages : List Bytes) :
    (messageResponses responses call messages).length = messages.length := by
  induction messages generalizing call with
  | nil => rfl
  | cons message rest ih =>
    rw [messageResponses]
    split <;> simp [ih]

theorem loopDialogues_responses {α : Type} (responses : Nat → Bytes) (options : α → CimapOptions)
    (call : Nat) (l : List α) :
    (loopDialogues (fun a => appendDialogue responses (options a)) call l).map Dialogue.responses =
      messageResponses responses call (l.map fun a => (options a).literal) := by
  induction l generalizing call with
  | nil => rfl
  | cons a rest ih =>
    rw [loopDialogues, List.map_cons, ih, List.map_cons, messageResponses, appendDialogue_responses]
    split <;> rfl

/-- A fact about the right side alone. -/
theorem forall₂_right_iff {α β : Type} (P : β → Prop) (l : List α) (l' : List β) :
    List.Forall₂ (fun _ b => P b) l l' ↔ l.length = l'.length ∧ ∀ b ∈ l', P b := by
  induction l generalizing l' with
  | nil => cases l' <;> simp
  | cons a l ih =>
    cases l' with
    | nil => simp
    | cons b l' => simp [ih, and_left_comm]

namespace Dialogue

theorem deleted_not_mem (d : Dialogue) (loginId : Bytes) : .deleted loginId ∉ d.events := by
  intro member
  rcases List.mem_cons.mp member with impossible | later
  · simp at impossible
  · have := d.quiet _ later
    simp [Event.endsDialogue] at this

end Dialogue

theorem Exchange.dialogue {verb : Verb} {options : CimapOptions} {w w' : World}
    (exchange : Exchange verb options w w') :
    ∃ d : Dialogue, d.verb = verb ∧ w'.trace = w.trace ++ d.events ∧ w'.queue = w.queue := by
  obtain ⟨queue, sent, rest, trace, quiet⟩ := exchange
  exact ⟨⟨verb, options, sent, rest, quiet⟩, rfl, trace, queue⟩

namespace Migration

variable {ι : Type} (m : Migration ι)

/-- The law for a run that ended in this world: nothing is deleted before the server has answered
OK to the LOGIN and to the APPEND of every available entry, and the row is still there if it has
refused one. -/
structure DeletesSafely (w : World) : Prop where
  accepted : (∃ loginId, .deleted loginId ∈ w.trace) →
    (∃ answer ∈ responsesTo .login w.trace, ∃ response ∈ answer, accepts response = true) ∧
      List.Forall₂ (fun _ answer => ∃ response ∈ answer, accepts response = true)
        (m.mailbox.filter (·.avaliable)) (responsesTo .append w.trace)
  kept : (∃ answer ∈ responsesTo .append w.trace, ∃ response ∈ answer, refuses response = true) →
    m.loginId ∈ w.queue

section Reliable

variable (responses : Nat → Bytes) (fit : ∀ call, (responses call).length ≤ maxBuffer)

/-- `delete_data` is reached: there is a connection, no lookup fails, and LOGOUT ends. -/
structure Reaches : Prop where
  connects : m.connects = true
  found : lookupFailure m.folders m.mailbox = none
  ends : LogoutEnds responses (m.logoutCall responses) emptyBuffer

def messages : List Bytes :=
  (appendTargets m.folders m.mailbox).map fun target => (m.appendOptions target).literal

/-- The server accepts the login and every mail. -/
structure Accepts : Prop where
  login : accepts (responses 1) = true
  mails : ∀ answer ∈ messageResponses responses (2 + m.folders.length) m.messages,
    (∃ response ∈ answer, accepts response = true) ∧
      ∀ response ∈ answer, refuses response = false

/-- The world of a run that has deleted the row. -/
def Deleted (w : World) : Prop :=
  ∃ logout : Dialogue, logout.verb = .logout ∧
    w.trace = .received (responses 0) :: ((m.dialogues responses ++ [logout]).flatMap
      Dialogue.events ++ [.deleted m.loginId]) ∧
    w.queue = m.queue.filter (· ≠ m.loginId)

/-- The world of a run that has not. -/
def Undeleted (w : World) : Prop := (∀ loginId, .deleted loginId ∉ w.trace) ∧ w.queue = m.queue

theorem Undeleted.deletesSafely {w : World} (undeleted : m.Undeleted w) : m.DeletesSafely w where
  accepted := fun ⟨loginId, member⟩ => absurd member (undeleted.1 loginId)
  kept := fun _ => undeleted.2 ▸ m.queued

theorem createDialogues_verb (verb : Verb) (other : verb ≠ .create) :
    (m.createDialogues responses).filter (·.verb = verb) = [] := by
  refine List.filter_eq_nil_iff.mpr fun d member => ?_
  obtain ⟨_, _, _, rfl⟩ := mem_loopDialogues _ _ _ _ member
  simp [createDialogue, lineDialogue, other.symm]

theorem appendDialogues_verb (d : Dialogue) (member : d ∈ m.appendDialogues responses) :
    d.verb = .append := by
  obtain ⟨_, _, _, rfl⟩ := mem_loopDialogues _ _ _ _ member
  rfl

theorem responsesTo_append (logout : Dialogue) (verb : logout.verb = .logout) :
    ((m.dialogues responses ++ [logout]).filter (·.verb = .append)).map Dialogue.responses =
      messageResponses responses (2 + m.folders.length) m.messages := by
  have creates := m.createDialogues_verb responses .append (by simp)
  have appends : (m.appendDialogues responses).filter (·.verb = .append) =
      m.appendDialogues responses :=
    List.filter_eq_self.mpr fun d member => by simp [m.appendDialogues_verb responses d member]
  simp only [dialogues, List.filter_append, List.filter_cons, creates, appends, loginDialogue,
    lineDialogue, verb, reduceCtorEq, decide_false, Bool.false_eq_true, if_false, List.filter_nil,
    List.nil_append, List.append_nil]
  exact loopDialogues_responses responses m.appendOptions _ _

theorem responsesTo_login (logout : Dialogue) (verb : logout.verb = .logout) :
    ((m.dialogues responses ++ [logout]).filter (·.verb = .login)).map Dialogue.responses =
      [[responses 1]] := by
  have creates := m.createDialogues_verb responses .login (by simp)
  have appends : (m.appendDialogues responses).filter (·.verb = .login) = [] :=
    List.filter_eq_nil_iff.mpr fun d member => by simp [m.appendDialogues_verb responses d member]
  simp only [dialogues, List.filter_append, List.filter_cons, creates, appends, loginDialogue,
    lineDialogue, verb, reduceCtorEq, decide_false, decide_true, Bool.false_eq_true, if_false,
    if_true, List.filter_nil, List.append_nil]
  rfl

theorem Deleted.safe_iff_accepts {w : World} (deleted : m.Deleted responses w)
    (found : lookupFailure m.folders m.mailbox = none) :
    m.DeletesSafely w ↔ m.Accepts responses := by
  obtain ⟨logout, verb, trace, queue⟩ := deleted
  have ended : ∀ event ∈ [Event.deleted m.loginId], ∃ loginId, event = .deleted loginId :=
    fun event member => ⟨_, List.mem_singleton.mp member⟩
  -- what the server said to LOGIN and to each APPEND is what the trace holds
  have login : responsesTo .login w.trace = [[responses 1]] := by
    rw [trace, responsesTo_received, responsesTo_dialogues _ _ _ ended,
      responsesTo_login m _ _ verb]
  have append : responsesTo .append w.trace =
      messageResponses responses (2 + m.folders.length) m.messages := by
    rw [trace, responsesTo_received, responsesTo_dialogues _ _ _ ended,
      responsesTo_append m _ _ verb]
  have gone : m.loginId ∉ w.queue := by simp [queue]
  have reached : ∃ loginId, .deleted loginId ∈ w.trace := ⟨m.loginId, by simp [trace]⟩
  have count : (m.mailbox.filter (·.avaliable)).length =
      (messageResponses responses (2 + m.folders.length) m.messages).length := by
    rw [messageResponses_length, messages, List.length_map, ← appendTargets_all _ _ found,
      List.length_map]
  constructor
  · intro safe
    obtain ⟨loggedIn, mails⟩ := safe.accepted reached
    rw [append, forall₂_right_iff] at mails
    refine ⟨by simpa [login] using loggedIn, fun answer member => ⟨mails.2 answer member, ?_⟩⟩
    intro response inside
    -- a refused mail would have to keep the row in the queue
    by_contra refused
    exact gone (safe.kept ⟨answer, append ▸ member, response, inside, by simpa using refused⟩)
  · intro accepted
    refine ⟨fun _ => ⟨by simpa [login] using accepted.login, ?_⟩, ?_⟩
    · rw [append, forall₂_right_iff]
      exact ⟨count, fun answer member => (accepted.mails answer member).1⟩
    · rintro ⟨answer, member, response, inside, refused⟩
      rw [append] at member
      rw [(accepted.mails answer member).2 response inside] at refused
      simp at refused

theorem finish_run (rounds : Nat) (w : World)
    (trace : w.trace = .received (responses 0) :: (m.dialogues responses).flatMap Dialogue.events)
    (queue : w.queue = m.queue) :
    Ensures (m.finish (.reliable responses fit) rounds) w (fun _ => m.Deleted responses)
      (fun _ => m.Undeleted) := by
  -- no dialogue deletes anything
  have none_ (more : List Dialogue) (loginId : Bytes) : .deleted loginId ∉
      .received (responses 0) :: (m.dialogues responses ++ more).flatMap Dialogue.events := by
    simp only [List.mem_cons, reduceCtorEq, false_or, List.mem_flatMap, not_exists, not_and]
    exact fun d _ => d.deleted_not_mem loginId
  rw [finish]
  cases lookupFailure m.folders m.mailbox with
  | some e =>
    refine ⟨fun loginId => ?_, queue⟩
    have here := none_ [] loginId
    rwa [List.append_nil, ← trace] at here
  | none =>
    rw [appendsDone, pure_bind]
    have logout := performLogout_exchange (.reliable responses fit) rounds w
    refine Ensures.bind (fun _ => Exchange .logout {} w)
      (logout.mono (fun _ _ run => run) fun _ w' exchange => ?_) fun _ w' exchange => ?_
    · obtain ⟨d, _, trace', queue'⟩ := exchange.dialogue
      refine ⟨fun loginId => ?_, queue'.trans queue⟩
      have there := none_ [d] loginId
      rw [trace', trace]
      simpa using there
    · obtain ⟨d, verb, trace', queue'⟩ := exchange.dialogue
      refine ⟨d, verb, ?_, ?_⟩
      · simp [trace', trace]
      · simp [queue', queue]

/-- Every run deletes the row or leaves everything as it was. -/
theorem imapPhase_run (rounds : Nat) :
    Ensures (m.imapPhase (.reliable responses fit) rounds) m.start
      (fun _ => m.Deleted responses) (fun _ => m.Undeleted) := by
  cases connects : m.connects with
  | false =>
    rw [m.imapPhase_unconnected _ _ connects]
    exact ⟨fun loginId => by simp [start], rfl⟩
  | true =>
    rw [m.imapPhase_eq _ _ connects]
    refine Ensures.bind _ (m.sendAll_ran responses fit _) ?_
    rintro _ w ⟨trace, _, queue⟩
    exact m.finish_run responses fit rounds w trace queue

/-- With enough rounds for LOGOUT a run that reaches the deletion returns. -/
theorem imapPhase_returns (reaches : m.Reaches responses) :
    ∃ rounds, Ensures (m.imapPhase (.reliable responses fit) rounds) m.start
      (fun _ _ => True) (fun _ _ => False) := by
  obtain ⟨n, other⟩ := reaches.ends
  refine ⟨n + 1, ?_⟩
  rw [m.imapPhase_eq _ _ reaches.connects]
  refine Ensures.bind _ (m.sendAll_ran responses fit _) ?_
  rintro _ w ⟨_, reads, _⟩
  rw [finish, reaches.found, appendsDone, pure_bind]
  refine Ensures.bind _ (performLogout_ends responses fit (n + 1) w _ ⟨n, Nat.lt_succ_self n, ?_⟩)
    fun _ _ _ => trivial
  rwa [reads]

/-- Otherwise no run returns. -/
theorem imapPhase_throws (unreached : ¬ m.Reaches responses) (rounds : Nat) :
    Ensures (m.imapPhase (.reliable responses fit) rounds) m.start
      (fun _ _ => False) (fun _ _ => True) := by
  cases connects : m.connects with
  | false =>
    rw [m.imapPhase_unconnected _ _ connects]
    trivial
  | true =>
    rw [m.imapPhase_eq _ _ connects]
    refine Ensures.bind _ (m.sendAll_ran responses fit _) ?_
    rintro _ w ⟨_, reads, _⟩
    rw [finish]
    cases found : lookupFailure m.folders m.mailbox with
    | some e => trivial
    | none =>
      rw [appendsDone, pure_bind]
      refine Ensures.bind _ (performLogout_runs responses fit rounds w _ (fun _ _ => trivial) ?_)
        fun _ _ impossible => impossible.elim
      exact fun ends => unreached ⟨connects, found, reads ▸ ends⟩

end Reliable

/-- Every run deletes safely exactly if the server accepts the login and every mail, or the deletion
is not reached. -/
theorem deletesSafely_iff (responses : Nat → Bytes)
    (fit : ∀ call, (responses call).length ≤ maxBuffer) :
    (∀ rounds,
      m.DeletesSafely (finalState (m.imapPhase (.reliable responses fit) rounds) m.start)) ↔
      (m.Reaches responses → m.Accepts responses) := by
  by_cases reaches : m.Reaches responses
  · rw [forall_prop_of_true reaches]
    constructor
    · intro safe
      obtain ⟨rounds, returns⟩ := m.imapPhase_returns responses fit reaches
      have deleted : m.Deleted responses
          (finalState (m.imapPhase (.reliable responses fit) rounds) m.start) :=
        (((m.imapPhase_run responses fit rounds).and returns).mono (fun _ _ both => both.1)
          fun _ _ both => both.2.elim).finalState
      exact (Deleted.safe_iff_accepts m responses deleted reaches.found).mp (safe rounds)
    · intro accepted rounds
      refine ((m.imapPhase_run responses fit rounds).mono (fun _ w deleted => ?_)
        fun _ w undeleted => ?_).finalState
      · exact (Deleted.safe_iff_accepts m responses deleted reaches.found).mpr accepted
      · exact Undeleted.deletesSafely m undeleted
  · -- an exception comes before the deletion, so nothing is deleted
    refine iff_of_true (fun rounds => ?_) fun reached => absurd reached reaches
    exact (((m.imapPhase_run responses fit rounds).and
      (m.imapPhase_throws responses fit reaches rounds)).mono (fun _ _ both => both.2.elim)
        fun _ _ both => Undeleted.deletesSafely m both.1).finalState

end Migration

/-- A server that answers OK to everything, and asks for the one literal. -/
def willingResponses (call : Nat) : Bytes :=
  if call = 3 then ascii "+ go ahead\r\n" else ascii "00 OK done\r\n"

theorem willingResponses_fit (call : Nat) : (willingResponses call).length ≤ maxBuffer := by
  rw [willingResponses]
  split <;> decide

theorem deletesSafely_iff_willing :
    (∀ rounds, (helloMigration inbox).DeletesSafely (finalState
      ((helloMigration inbox).imapPhase (.reliable willingResponses willingResponses_fit) rounds)
      (helloMigration inbox).start)) ∧
    (helloMigration inbox).Accepts willingResponses := by
  have accepts : (helloMigration inbox).Accepts willingResponses :=
    ⟨by decide +kernel, by decide +kernel⟩
  exact ⟨(Migration.deletesSafely_iff (helloMigration inbox) willingResponses
    willingResponses_fit).mpr fun _ => accepts, accepts⟩

/-- One that does the same, but does not take the mail. -/
def fullResponses (call : Nat) : Bytes :=
  if call = 4 then ascii "00 NO over quota\r\n" else willingResponses call

/-- The row is deleted, and the mail is lost. -/
theorem deletes_after_refusal :
    ¬ (helloMigration inbox).DeletesSafely (finalState
      ((helloMigration inbox).imapPhase (.reliable fullResponses fun call => by
        rw [fullResponses, willingResponses]; split <;> [decide; split <;> decide]) 1)
      (helloMigration inbox).start) := by
  intro safe
  exact absurd (safe.kept (by decide +kernel)) (by decide +kernel)

end Zn
