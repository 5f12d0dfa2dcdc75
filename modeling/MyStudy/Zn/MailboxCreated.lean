import MyStudy.Lib.History
import MyStudy.Zn.FilterSequence
import MyStudy.Zn.ImapPhase

/-!
# The mailboxes of APPEND and CREATE

The CREATE loop names a folder by its path, the APPEND loop by the encoded path. Mails go to
mailboxes that were created exactly as far as the two agree.
-/
namespace Zn

open Program History

/-- A CREATE with this mailbox name was sent. -/
def WasCreated (trace : List Event) (name : Bytes) : Prop :=
  ∃ options sent, .command .create options sent ∈ trace ∧ options.mailboxname = name

/-- The mailbox of an APPEND was created before. -/
def AppendsToCreated (before : List Event) (event : Event) : Prop :=
  ∀ options sent, event = .command .append options sent → WasCreated before options.mailboxname

theorem WasCreated.append {trace : List Event} {name : Bytes} (created : WasCreated trace name)
    (more : List Event) : WasCreated (trace ++ more) name := by
  obtain ⟨options, sent, member, same⟩ := created
  exact ⟨options, sent, List.mem_append_left more member, same⟩

/-- A trace goes on lawfully with events that were allowed from the start. -/
theorem lawful_extend {trace events : List Event} (lawful : Lawful AppendsToCreated trace)
    (allowed : ∀ event ∈ events, AppendsToCreated trace event) :
    Lawful AppendsToCreated (trace ++ events) := by
  refine (lawful_append _ trace events).mpr ⟨lawful, lawful_of_forall _ events ?_⟩
  exact fun event member before options sent same =>
    (allowed event member options sent same).append before

theorem quiet_allowed {event : Event} (trace : List Event) (quiet : event.endsDialogue = false) :
    AppendsToCreated trace event := by
  rintro options sent rfl
  simp [Event.endsDialogue] at quiet

theorem Exchange.lawful {verb : Verb} {options : CimapOptions} {w w' : World}
    (exchange : Exchange verb options w w') (lawful : Lawful AppendsToCreated w.trace)
    (created : verb = .append → WasCreated w.trace options.mailboxname) :
    Lawful AppendsToCreated w'.trace := by
  obtain ⟨_, sent, rest, trace, quiet⟩ := exchange
  rw [trace]
  refine lawful_extend lawful fun event member => ?_
  rcases List.mem_cons.mp member with rfl | later
  · intro options' sent' same
    obtain ⟨append, rfl, _⟩ := Event.command.inj same
    exact created append
  · exact quiet_allowed _ (quiet event later)

theorem Exchange.Continues.lawful {w w' : World} (continues : Continues w w')
    (lawful : Lawful AppendsToCreated w.trace) : Lawful AppendsToCreated w'.trace := by
  obtain ⟨_, rest, trace, quiet⟩ := continues
  rw [trace]
  exact lawful_extend lawful fun event member => quiet_allowed _ (quiet event member)

theorem Exchange.wasCreated {verb : Verb} {options : CimapOptions} {w w' : World}
    (exchange : Exchange verb options w w') (name : Bytes) (created : WasCreated w.trace name) :
    WasCreated w'.trace name := by
  obtain ⟨_, sent, rest, trace, _⟩ := exchange
  rw [trace]
  exact created.append _

theorem Exchange.creates {options : CimapOptions} {w w' : World}
    (exchange : Exchange .create options w w') : WasCreated w'.trace options.mailboxname := by
  obtain ⟨_, sent, rest, trace, _⟩ := exchange
  exact ⟨options, sent, by simp [trace], rfl⟩

namespace Migration

variable {ι : Type} (m : Migration ι) (server : Server)

/-- Every mail that is reached goes to a mailbox with the path of some folder. -/
def TargetsCreated : Prop :=
  ∀ target ∈ appendTargets m.folders m.mailbox, ∃ f ∈ m.folders, f.name = target.2.utf7name

/-- What holds after the folders in `done` were created. -/
structure Created (done : List FolderInfo) (w : World) : Prop where
  lawful : Lawful AppendsToCreated w.trace
  created : ∀ f ∈ done, WasCreated w.trace f.name

theorem createFolder_created (done : List FolderInfo) (it : FolderInfo) (w : World)
    (before : Created done w) :
    Ensures (createFolder server it) w (fun _ => Created (done ++ [it]))
      (fun _ w' => Lawful AppendsToCreated w'.trace) := by
  have lawful (w' : World) (exchange : Exchange .create (createOptions it) w w') :=
    exchange.lawful before.lawful fun append => by simp at append
  have sent := performLine_exchange server .create (createOptions it)
    (createLine (createOptions it)) w
  refine Ensures.bind (fun _ => Exchange .create (createOptions it) w)
    (sent.mono (fun _ _ exchange => exchange) fun _ w' => lawful w') fun _ w' exchange => ?_
  refine ⟨lawful w' exchange, fun f member => ?_⟩
  rcases List.mem_append.mp member with earlier | here
  · exact exchange.wasCreated f.name (before.created f earlier)
  · rw [List.mem_singleton.mp here]
    exact exchange.creates

theorem appendTarget_created (target : MailboxEntry × FolderInfo) (w : World)
    (before : Created m.folders w) (created : ∃ f ∈ m.folders, f.name = target.2.utf7name) :
    Ensures (m.appendTarget server target) w (fun _ => Created m.folders)
      (fun _ w' => Lawful AppendsToCreated w'.trace) := by
  have lawful (w' : World) (exchange : Exchange .append (m.appendOptions target) w w') :=
    exchange.lawful before.lawful fun _ => by
      obtain ⟨f, member, same⟩ := created
      have name : (m.appendOptions target).mailboxname = f.name := same.symm
      rw [name]
      exact before.created f member
  refine Ensures.bind (fun _ => Exchange .append (m.appendOptions target) w)
    ((performAppend_exchange server _ w).mono (fun _ _ exchange => exchange) fun _ w' => lawful w')
    fun _ w' exchange => ?_
  exact ⟨lawful w' exchange, fun f member => exchange.wasCreated f.name (before.created f member)⟩

theorem sendAll_created (targets : m.TargetsCreated) :
    Ensures (m.sendAll server) m.start (fun _ => Created m.folders)
      (fun _ w' => Lawful AppendsToCreated w'.trace) := by
  have begun : Created [] m.start := ⟨lawful_nil _, by simp⟩
  refine Ensures.bind (fun _ => Created []) ?_ fun _ w₁ welcomed => ?_
  · refine (performWelcome_continues server _).mono (fun _ _ run => ?_) fun _ _ run => ?_
    · exact ⟨run.lawful begun.lawful, by simp⟩
    · exact run.lawful begun.lawful
  refine Ensures.bind (fun _ => Created []) ?_ fun _ w₂ loggedIn => ?_
  · refine (performLine_exchange server .login _ _ w₁).mono (fun _ _ run => ?_) fun _ _ run => ?_
    · exact ⟨run.lawful welcomed.lawful (by simp), by simp⟩
    · exact run.lawful welcomed.lawful (by simp)
  refine Ensures.bind _ (Ensures.forM Created m.folders w₂ loggedIn ?_) fun _ w₃ created => ?_
  · exact fun done it w _ before => createFolder_created server done it w before
  refine Ensures.forM (fun _ => Created m.folders) _ w₃ created ?_
  exact fun _ target w member before => m.appendTarget_created server target w before
    (targets target member)

theorem finish_lawful (rounds : Nat) (w : World) (before : Lawful AppendsToCreated w.trace) :
    Ensures (m.finish server rounds) w (fun _ w' => Lawful AppendsToCreated w'.trace)
      (fun _ w' => Lawful AppendsToCreated w'.trace) := by
  rw [finish]
  cases lookupFailure m.folders m.mailbox with
  | some e => exact before
  | none =>
    refine Ensures.bind (fun _ w' => Lawful AppendsToCreated w'.trace) before fun _ w₁ here => ?_
    refine Ensures.bind (fun _ w' => Lawful AppendsToCreated w'.trace) ?_ fun _ w₂ there => ?_
    · exact (performLogout_exchange server rounds w₁).mono
        (fun _ _ run => run.lawful here (by simp)) fun _ _ run => run.lawful here (by simp)
    · exact lawful_extend there (by simp [AppendsToCreated])

/-- In a session with a server that never fails a call, every mail that is reached is sent. -/
theorem targets_created_of_lawful (responses : Nat → Bytes)
    (lawful : Lawful AppendsToCreated
      (.received (responses 0) :: (m.dialogues responses).flatMap Dialogue.events)) :
    m.TargetsCreated := by
  intro target member
  obtain ⟨n, among⟩ := exists_loopDialogue
    (fun target => appendDialogue responses (m.appendOptions target)) (2 + m.folders.length) _
    target member
  have sent : .command .append (m.appendOptions target) (appendLine (m.appendOptions target)) ∈
      (m.dialogues responses).flatMap Dialogue.events :=
    List.mem_flatMap.mpr ⟨_, List.mem_cons_of_mem _ (List.mem_append_right _ among),
      List.mem_cons_self⟩
  obtain ⟨before, after, trace⟩ := List.append_of_mem (List.mem_cons_of_mem
    (.received (responses 0)) sent)
  obtain ⟨options, line, earlier, name⟩ := lawful before _ after trace _ _ rfl
  have inside : .command .create options line ∈
      .received (responses 0) :: (m.dialogues responses).flatMap Dialogue.events := by
    rw [trace]
    exact List.mem_append_left _ earlier
  rcases List.mem_cons.mp inside with impossible | inside
  · simp at impossible
  -- only the dialogues of the folders start with a CREATE
  obtain ⟨d, dialogue, command⟩ := List.mem_flatMap.mp inside
  obtain ⟨verb, rfl⟩ := d.command_mem_events _ _ _ command
  rcases List.mem_cons.mp dialogue with rfl | dialogue
  · exact absurd verb (by simp [loginDialogue, lineDialogue])
  rcases List.mem_append.mp dialogue with create | append
  · obtain ⟨f, folder, _, rfl⟩ := mem_loopDialogues _ _ _ _ create
    exact ⟨f, folder, name⟩
  · obtain ⟨_, _, _, rfl⟩ := mem_loopDialogues _ _ _ _ append
    exact absurd verb (by simp [appendDialogue])

/-- The trace of the world starts with this one. -/
def Extends (trace : List Event) (w : World) : Prop := ∃ more, w.trace = trace ++ more

theorem finish_extends (rounds : Nat) (w : World) :
    Ensures (m.finish server rounds) w (fun _ => Extends w.trace) (fun _ => Extends w.trace) := by
  rw [finish]
  cases lookupFailure m.folders m.mailbox with
  | some e => exact ⟨[], (List.append_nil _).symm⟩
  | none =>
    have logout := performLogout_exchange server rounds w
    have sent (w' : World) (exchange : Exchange .logout {} w w') : Extends w.trace w' := by
      obtain ⟨_, sent, rest, trace, _⟩ := exchange
      exact ⟨_, trace⟩
    rw [appendsDone, pure_bind]
    refine Ensures.bind (fun _ => Extends w.trace)
      (logout.mono (fun _ => sent) fun _ => sent) fun _ w' extended => ?_
    obtain ⟨more, trace⟩ := extended
    exact ⟨more ++ [.deleted m.loginId], by simp [trace]⟩

/-- The law holds in every session if and only if every mail goes to the path of a folder. -/
theorem lawful_iff_targets_created (connects : m.connects = true) :
    (∀ server rounds,
      Lawful AppendsToCreated (finalState (m.imapPhase server rounds) m.start).trace) ↔
      m.TargetsCreated := by
  constructor
  · intro lawful
    have fit (_ : Nat) : ([] : Bytes).length ≤ maxBuffer := Nat.zero_le _
    -- a server that answers every command, if with nothing, lets all the mails be sent
    refine m.targets_created_of_lawful (fun _ => []) ?_
    have extends_ : Extends (.received [] :: (m.dialogues fun _ => []).flatMap Dialogue.events)
        (finalState (m.imapPhase (.reliable _ fit) 0) m.start) := by
      apply Ensures.finalState
      rw [imapPhase_eq m _ _ connects]
      refine Ensures.bind _ (m.sendAll_ran (fun _ => []) fit _) ?_
      rintro _ w ⟨trace, _⟩
      rw [← trace]
      exact m.finish_extends _ 0 w
    obtain ⟨more, trace⟩ := extends_
    have whole := lawful (.reliable _ fit) 0
    rw [trace] at whole
    exact whole.of_append_left
  · intro targets server rounds
    have run : Ensures (m.imapPhase server rounds) m.start
        (fun _ w' => Lawful AppendsToCreated w'.trace)
        (fun _ w' => Lawful AppendsToCreated w'.trace) := by
      rw [imapPhase_eq m _ _ connects]
      exact Ensures.bind _ (m.sendAll_created server targets) fun _ w created =>
        m.finish_lawful server rounds w created.lawful
    exact run.finalState

/-- For folders as the filters leave them the law is one about their paths. -/
theorem targetsCreated_iff (iconv : Iconv)
    (encoded : ∀ f ∈ m.folders, convertFolderPath iconv f.name = .ok f.utf7name) :
    m.TargetsCreated ↔ ∀ target ∈ appendTargets m.folders m.mailbox,
      ∃ f ∈ m.folders, convertFolderPath iconv target.2.name = .ok f.name := by
  refine forall₂_congr fun target member => exists_congr fun f => and_congr_right fun _ => ?_
  rw [encoded target.2 (appendTargets_folder _ _ target member), Except.ok.injEq, eq_comm]

/-- Folders with plain names are no problem. -/
theorem targetsCreated_of_plain (iconv : Iconv)
    (encoded : ∀ f ∈ m.folders, convertFolderPath iconv f.name = .ok f.utf7name)
    (plain : ∀ f ∈ m.folders, ∀ c ∈ f.name, isPlain c = true) : m.TargetsCreated := by
  intro target member
  have folder := appendTargets_folder _ _ target member
  exact ⟨target.2, folder, (convertFolderPath_plain iconv _ _ (plain target.2 folder)
    (encoded target.2 folder)).symm⟩

end Migration

/-- For folders and mails as the filters leave them, every APPEND of every session is to a mailbox
that was created, exactly if the encoded path of each mail's folder is the path of a folder. It is
where the paths are plain. -/
theorem append_mailboxes_created_iff {ι : Type} (cfg : Config) (stdSort : ComparisonSort)
    (iconv : Iconv) (folders : FolderVector) (mailbox : List MailboxEntry) (m : Migration ι)
    (filtered : filterSequence cfg stdSort iconv folders mailbox = .returns m.folders m.mailbox) :
    ((∀ server rounds,
      Lawful AppendsToCreated (finalState (m.imapPhase server rounds) m.start).trace) ↔
      (m.connects = true → ∀ target ∈ Migration.appendTargets m.folders m.mailbox,
        ∃ f ∈ m.folders, convertFolderPath iconv target.2.name = .ok f.name)) ∧
      ((∀ f ∈ m.folders, ∀ c ∈ f.name, isPlain c = true) →
        ∀ target ∈ Migration.appendTargets m.folders m.mailbox,
          ∃ f ∈ m.folders, convertFolderPath iconv target.2.name = .ok f.name) := by
  have encoded := filterSequence_encoded cfg stdSort iconv folders _ mailbox _ filtered
  rw [← m.targetsCreated_iff iconv encoded]
  refine ⟨?_, m.targetsCreated_of_plain iconv encoded⟩
  cases connects : m.connects with
  | true =>
    rw [m.lawful_iff_targets_created connects]
    simp
  | false =>
    refine iff_of_true (fun server rounds => ?_) (by simp)
    rw [m.imapPhase_unconnected server rounds connects]
    exact lawful_nil _

theorem append_mailboxes_created_iff_inbox :
    (helloMigration inbox).connects = true ∧ ∀ server rounds, Lawful AppendsToCreated
      (finalState ((helloMigration inbox).imapPhase server rounds)
        (helloMigration inbox).start).trace :=
  ⟨rfl, (append_mailboxes_created_iff Config.migration .insertion .none ⟨[inbox], 1, by decide⟩
    (helloMigration inbox).mailbox (helloMigration inbox) (by decide +kernel)).1.mpr
    (by decide +kernel)⟩

/-- A folder of the user's own with an ampersand in its name. -/
def ampersandFolder : FolderInfo := ⟨ascii "/a&b", ascii "/a&-b", 300⟩

/-- It is created as "/a&b", and its mail is appended to "/a&-b". -/
theorem append_to_mailbox_not_created :
    filterSequence Config.migration .insertion .none ⟨[⟨ascii "/a&b", [], 300⟩], 1, by decide⟩
        (helloMigration ampersandFolder).mailbox =
      .returns (helloMigration ampersandFolder).folders (helloMigration ampersandFolder).mailbox ∧
    ¬ Lawful AppendsToCreated (finalState
      ((helloMigration ampersandFolder).imapPhase (.reliable (fun _ => []) fun _ => by decide) 1)
      (helloMigration ampersandFolder).start).trace := by
  refine ⟨by decide +kernel, fun lawful => ?_⟩
  obtain ⟨options, sent, member, name⟩ := lawful
    [.received [],
      .command .login (helloMigration ampersandFolder).loginOptions
        (loginLine (helloMigration ampersandFolder).loginOptions),
      .received [],
      .command .create { mailboxname := ascii "/a&b" } (createLine { mailboxname := ascii "/a&b" }),
      .received []]
    (.command .append { mailboxname := ascii "/a&-b", literal := ascii "hello" }
      (appendLine { mailboxname := ascii "/a&-b", literal := ascii "hello" }))
    [.received [], .literal (ascii "hello"), .cmdEnd cimapCmdEnd, .received [],
      .command .logout {} logoutLine, .received [], .deleted (ascii "user")]
    (by decide +kernel) _ _ rfl
  simp only [List.mem_cons, reduceCtorEq, Event.command.injEq, false_or, or_false, false_and,
    List.not_mem_nil, true_and] at member
  rw [member.1] at name
  revert name
  decide

end Zn
