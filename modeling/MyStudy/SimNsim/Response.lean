import MyStudy.SimNsim.Configuration

/-!
# The answers of the simulator

`doResponse` looks a command up in the table of the configuration and answers with the next entry of
its queue. The table may lack the queue, and a queue may be empty.

## Main result

`handleAll_iff`: over a sequence of commands every lookup succeeds, and the queues are gone through
in turn, exactly when each command has a queue that is not empty.
-/
namespace SimNsim

/-- The parts of a command line that `doResponse` reads. -/
structure ImapCommand where
  tag : Bytes
  imapCmd : Bytes
  para1 : Bytes
  deriving DecidableEq, Repr

/-- One word of a command, and what follows it, trimmed, if a blank does; `none` is a text read
beyond its ends. -/
def takeWord (cmd : Bytes) : Option (Bytes × Option Bytes) :=
  match cmd.idxOf? space with
  | none => some (cmd, none)
  | some pos => (trim (cmd.drop pos)).map fun rest => (cmd.take pos, some rest)

/-- The words of `getImapCommand` before the upper case. An empty text has empty words. -/
def commandWords (strCmd : Bytes) : Option ImapCommand :=
  (trim strCmd).bind fun cmd =>
    (takeWord cmd).bind fun (tag, rest) =>
      match rest with
      | none => some ⟨tag, [], []⟩
      | some cmd =>
        (takeWord cmd).bind fun (imapCmd, rest) =>
          match rest with
          | none => some ⟨tag, imapCmd, []⟩
          | some cmd => (takeWord cmd).map fun (para1, _) => ⟨tag, imapCmd, para1⟩

def getImapCommand (strCmd : Bytes) : Option ImapCommand :=
  (commandWords strCmd).map fun cmd => { cmd with imapCmd := cnvToUpper cmd.imapCmd }

namespace Configuration

/-- `getCmdQueIndex`; `none` stands for -1. -/
def getCmdQueIndex (conf : Configuration) (key : Bytes) : Option Nat :=
  conf.mapCmdQueCount.lookup key

/-- The value of a key that the map has. -/
def setCount (m : List (Bytes × Nat)) (key : Bytes) (n : Nat) : List (Bytes × Nat) :=
  m.map fun pair => if pair.1 = key then (pair.1, n) else pair

/-- `cmdQueIndexIncrement`; `none` is an exception of `at` or an overflow of the `int`. -/
def cmdQueIndexIncrement (conf : Configuration) (key : Bytes) : Option Configuration :=
  match conf.mapCmdQueCount.lookup key with
  | none => some conf
  | some curIndex =>
    (conf.mapCmdQue.lookup key).bind fun que =>
      -- the size is unsigned: one less than none is the largest number
      if que.length = 0 || curIndex < que.length - 1 then
        if curIndex + 1 < 2 ^ 31 then
          some { conf with mapCmdQueCount := setCount conf.mapCmdQueCount key (curIndex + 1) }
        else none
      else some { conf with mapCmdQueCount := setCount conf.mapCmdQueCount key 0 }

end Configuration

/-- A call of `doResponse`: the queue it went to, the entry it took from there, the text it sent,
and whether the session goes on. For an unknown type no text can be given: the source adds numbers
to the address of its message and reads somewhere else. -/
structure Reply where
  que : Bytes
  queCmd : Command
  sendData : Option Bytes
  goesOn : Bool
  deriving DecidableEq, Repr

def crlf : Bytes := [cr, lf]

/-- The `switch` over the type of an entry. -/
def sendDataFor (conf : Configuration) (type : UInt8) (tmpCmd : Bytes) : Option Bytes × Bool :=
  if type = '0'.toUInt8 then (some tmpCmd, true)
  else if type = '1'.toUInt8 then (some (conf.strDisconnect ++ crlf ++ tmpCmd), false)
  else if type = '2'.toUInt8 then (some tmpCmd, false)
  -- after `exe_timer` seconds
  else if type = '3'.toUInt8 then (some conf.strDisconnect, false)
  else if type = '4'.toUInt8 then (some (conf.strLogout ++ crlf ++ tmpCmd), false)
  else (none, false)

/-- The second half of `doResponse`, behind the lookups. -/
def replyFor (host : Host) (conf : Configuration) (curCmd : ImapCommand) (que : Bytes)
    (queCmd : Command) : Reply :=
  let tmpCmd := (cstr (host.sprintf queCmd.cmd curCmd.tag curCmd.para1)).take (1024 - 2)
  let (sendData, goesOn) := sendDataFor conf queCmd.type tmpCmd
  -- a reply that cannot be sent ends the session, too
  ⟨que, queCmd, sendData, goesOn && (sendData.map host.send).getD false⟩

def otherQueue : Bytes := ascii "OTHER"

/-- The queue for a command: its own, if the table has it. -/
def queueFor (conf : Configuration) (imapCmd : Bytes) : Bytes :=
  if (conf.mapCmdQue.lookup imapCmd).isSome then imapCmd else otherQueue

/-- `doResponse`, with the configuration afterwards; `none` is an exception of `at` or a lookup out
of range. -/
def doResponse (host : Host) (conf : Configuration) (recvData : Bytes) :
    Option (Configuration × Reply) := do
  let curCmd ← getImapCommand recvData
  let imapCmd := queueFor conf curCmd.imapCmd
  let curQues ← conf.mapCmdQue.lookup imapCmd
  let curIndex ← conf.getCmdQueIndex imapCmd
  let conf ← conf.cmdQueIndexIncrement imapCmd
  let queCmd ← curQues[curIndex]?
  some (conf, replyFor host conf curCmd imapCmd queCmd)

/-- A sequence of commands, handled one after the other. -/
def handleAll (host : Host) : Configuration → List Bytes → Option (List Reply)
  | _, [] => some []
  | conf, recvData :: more => do
    let (conf, reply) ← doResponse host conf recvData
    let replies ← handleAll host conf more
    some (reply :: replies)

/-! ### What is expected -/

/-- The queue that a command line goes to. -/
def queueOf (conf : Configuration) (recvData : Bytes) : Bytes :=
  match getImapCommand recvData with
  | some curCmd => queueFor conf curCmd.imapCmd
  | none => otherQueue

/-- The replies take the entries of each queue in turn; `before` are the queues of earlier
replies. -/
def InTurn (conf : Configuration) : List Bytes → List Bytes → List Reply → Prop
  | _, [], replies => replies = []
  | before, recvData :: more, replies =>
    ∃ que reply later, replies = reply :: later ∧ reply.que = queueOf conf recvData ∧
      conf.mapCmdQue.lookup reply.que = some que ∧
      que[before.count reply.que % que.length]? = some reply.queCmd ∧
      InTurn conf (reply.que :: before) more later

/-- A text with a character that `trim` leaves, or none at all. -/
def NotBlank (recvData : Bytes) : Prop := recvData = [] ∨ ∃ c ∈ recvData, isTrimmed c = false

/-- The command is not made of blanks, and it has a queue, its own or `OTHER`, with an entry. The
number of the entry after the next one is an `int`, if there is one. -/
def AnswerableNext (conf : Configuration) (before : List Bytes) (recvData : Bytes) : Prop :=
  NotBlank recvData ∧ ∃ que, conf.mapCmdQue.lookup (queueOf conf recvData) = some que ∧ que ≠ [] ∧
    (before.count (queueOf conf recvData) % que.length + 1 < que.length →
      before.count (queueOf conf recvData) % que.length + 1 < 2 ^ 31)

def Answerable (conf : Configuration) : List Bytes → List Bytes → Prop
  | _, [] => True
  | before, recvData :: more =>
    AnswerableNext conf before recvData ∧ Answerable conf (queueOf conf recvData :: before) more

/-! ### Words -/

/-- A text that does not end with a blank. -/
def EndsPlain (str : Bytes) : Prop := ∀ c, str.getLast? = some c → isTrimmed c = false

theorem endsPlain_drop (str : Bytes) (n : Nat) (plain : EndsPlain str) :
    EndsPlain (str.drop n) := by
  intro c last
  rw [List.getLast?_drop] at last
  exact plain c (Option.ite_none_left_eq_some.mp last).2

theorem trim_endsPlain (str trimmed : Bytes) (done : trim str = some trimmed) :
    EndsPlain trimmed := by
  rw [trim] at done
  split at done
  · rw [← Option.some.inj done]
    simp [EndsPlain]
  · split at done
    · simp at done
    · rw [← Option.some.inj done]
      intro c last
      obtain ⟨some_, same⟩ := List.mem_getLast?_eq_getLast last
      have other := List.rdropWhile_last_not isTrimmed _ some_
      rwa [← same, Bool.not_eq_true] at other

theorem trim_of_endsPlain (str : Bytes) (plain : EndsPlain str) :
    ∃ trimmed, trim str = some trimmed := by
  rw [← Option.ne_none_iff_exists', Ne, trim_eq_none_iff]
  rintro ⟨some_, all⟩
  have last := List.getLast?_eq_some_getLast some_
  have blank := all _ (List.getLast_mem some_)
  rw [plain _ last] at blank
  exact Bool.false_ne_true blank

theorem trim_isSome_iff (str : Bytes) : (∃ trimmed, trim str = some trimmed) ↔ NotBlank str := by
  rw [← Option.ne_none_iff_exists', Ne, trim_eq_none_iff, NotBlank, not_and_or, not_not]
  simp

theorem takeWord_isSome (cmd : Bytes) (plain : EndsPlain cmd) :
    ∃ word rest, takeWord cmd = some (word, rest) ∧ ∀ more, rest = some more → EndsPlain more := by
  rw [takeWord]
  split
  · exact ⟨cmd, none, rfl, by simp⟩
  next pos _ =>
    obtain ⟨rest, trimmed⟩ := trim_of_endsPlain _ (endsPlain_drop cmd pos plain)
    rw [trimmed]
    refine ⟨_, _, rfl, ?_⟩
    rintro more ⟨⟩
    exact trim_endsPlain _ rest trimmed

/-- The words of a command can be taken as soon as it is trimmed. -/
theorem getImapCommand_isSome_iff (strCmd : Bytes) :
    (∃ cmd, getImapCommand strCmd = some cmd) ↔ NotBlank strCmd := by
  rw [← trim_isSome_iff]
  constructor
  · rintro ⟨_, words⟩
    obtain ⟨_, words, _⟩ := Option.map_eq_some_iff.mp words
    obtain ⟨cmd, trimmed, _⟩ := Option.bind_eq_some_iff.mp words
    exact ⟨cmd, trimmed⟩
  · rintro ⟨cmd, trimmed⟩
    suffices ∃ words, commandWords strCmd = some words by
      obtain ⟨words, same⟩ := this
      exact ⟨_, by rw [getImapCommand, same]; rfl⟩
    rw [commandWords, trimmed, Option.bind_some]
    -- each word leaves a text that does not end with a blank
    obtain ⟨tag, rest, first, plain⟩ := takeWord_isSome cmd (trim_endsPlain strCmd cmd trimmed)
    rw [first, Option.bind_some]
    cases rest with
    | none => exact ⟨_, rfl⟩
    | some cmd =>
      obtain ⟨imapCmd, rest, second, plain⟩ := takeWord_isSome cmd (plain cmd rfl)
      simp only [second, Option.bind_some]
      cases rest with
      | none => exact ⟨_, rfl⟩
      | some cmd =>
        obtain ⟨para1, rest, third, _⟩ := takeWord_isSome cmd (plain cmd rfl)
        exact ⟨⟨tag, imapCmd, para1⟩, by simp only [third, Option.map_some]⟩

/-! ### Counters -/

/-- The counters behind replies from the queues `before`; the table is that of `conf`. -/
structure Counts (conf : Configuration) (before : List Bytes) (now : Configuration) : Prop where
  table : now.mapCmdQue = conf.mapCmdQue
  index : ∀ key que, conf.mapCmdQue.lookup key = some que → que ≠ [] →
    now.mapCmdQueCount.lookup key = some (before.count key % que.length)

theorem lookup_setCount_ne (m : List (Bytes × Nat)) (key other : Bytes) (n : Nat)
    (apart : other ≠ key) : (Configuration.setCount m key n).lookup other = m.lookup other := by
  induction m with
  | nil => rfl
  | cons pair m ih =>
    rw [Configuration.setCount, List.map_cons, ← Configuration.setCount, List.lookup_cons,
      List.lookup_cons, ih]
    by_cases here : pair.1 = key
    · have differs : (other == key) = false := by simpa using apart
      simp only [here, if_true, differs]
    · simp only [here, if_false]

theorem lookup_setCount_self (m : List (Bytes × Nat)) (key : Bytes) (n old : Nat)
    (found : m.lookup key = some old) : (Configuration.setCount m key n).lookup key = some n := by
  induction m with
  | nil => simp at found
  | cons pair m ih =>
    rw [Configuration.setCount, List.map_cons, ← Configuration.setCount, List.lookup_cons]
    by_cases here : pair.1 = key
    · simp [here]
    · have differs : (key == pair.1) = false := by simpa using Ne.symm here
      rw [List.lookup_cons, differs] at found
      simp only [here, if_false, differs]
      exact ih found

theorem queueOf_eq (conf : Configuration) (recvData : Bytes) (curCmd : ImapCommand)
    (words : getImapCommand recvData = some curCmd) :
    queueOf conf recvData = queueFor conf curCmd.imapCmd := by
  rw [queueOf, words]

theorem add_one_mod (k n : Nat) (pos : 0 < n) :
    (k + 1) % n = if k % n + 1 < n then k % n + 1 else 0 := by
  have below := Nat.mod_lt k pos
  rw [← Nat.mod_add_mod]
  split
  next fits => exact Nat.mod_eq_of_lt fits
  next full =>
    have last : k % n + 1 = n := by omega
    rw [last, Nat.mod_self]

section Step

variable (host : Host) {conf now : Configuration} {before : List Bytes} (recvData : Bytes)

/-- The index moves on to the next entry, or back to the first. -/
theorem cmdQueIndexIncrement_eq (counts : Counts conf before now) (key : Bytes)
    (que : List Command) (found : conf.mapCmdQue.lookup key = some que) (some_ : que ≠ []) :
    now.cmdQueIndexIncrement key =
      if before.count key % que.length + 1 < que.length →
      before.count key % que.length + 1 < 2 ^ 31 then
        some { now with mapCmdQueCount :=
          Configuration.setCount now.mapCmdQueCount key ((before.count key + 1) % que.length) }
      else none := by
  have pos : 0 < que.length := List.length_pos_of_ne_nil some_
  have index := counts.index key que found some_
  have next := add_one_mod (before.count key) que.length pos
  generalize before.count key % que.length = i at index next ⊢
  simp only [Configuration.cmdQueIndexIncrement, index, counts.table, found, Option.bind_some]
  -- `index < size - 1` and `index + 1 < size` are the same, since the queue is not empty
  by_cases more : i + 1 < que.length
  · have early : (que.length = 0 || i < que.length - 1) = true := by
      rw [Bool.or_eq_true, decide_eq_true_eq, decide_eq_true_eq]
      omega
    rw [if_pos more] at next
    rw [next]
    simp only [early, if_true, more, forall_const]
  · have late : ¬ (que.length = 0 || i < que.length - 1) = true := by
      rw [Bool.or_eq_true, decide_eq_true_eq, decide_eq_true_eq]
      omega
    rw [if_neg more] at next
    rw [next]
    simp only [late, if_false, more, false_imp_iff, if_true, Bool.false_eq_true]

theorem counts_next (counts : Counts conf before now) (key : Bytes) (que : List Command)
    (found : conf.mapCmdQue.lookup key = some que) (some_ : que ≠ []) :
    Counts conf (key :: before)
      { now with
        mapCmdQueCount :=
          Configuration.setCount now.mapCmdQueCount key
            ((before.count key + 1) % que.length) } where
  table := counts.table
  index := fun other que' found' some' => by
    rw [List.count_cons]
    by_cases same : other = key
    · subst same
      rw [found] at found'
      rw [lookup_setCount_self _ other _ _ (counts.index other que found some_),
        Option.some.inj found']
      simp
    · have differs : (key == other) = false := by simpa using Ne.symm same
      rw [lookup_setCount_ne _ key other _ same, differs, counts.index other que' found' some']
      rfl

/-- With an entry to answer with, the reply has it, unless the number of the one after it is too
large. -/
theorem doResponse_eq (counts : Counts conf before now) (curCmd : ImapCommand) (que : List Command)
    (words : getImapCommand recvData = some curCmd)
    (found : conf.mapCmdQue.lookup (queueOf conf recvData) = some que) (some_ : que ≠ []) :
    ∃ next reply, Counts conf (queueOf conf recvData :: before) next ∧
      reply.que = queueOf conf recvData ∧
      que[before.count (queueOf conf recvData) % que.length]? = some reply.queCmd ∧
      doResponse host now recvData =
        if before.count (queueOf conf recvData) % que.length + 1 < que.length →
          before.count (queueOf conf recvData) % que.length + 1 < 2 ^ 31 then some (next, reply)
        else none := by
  have key : queueFor now curCmd.imapCmd = queueOf conf recvData := by
    rw [queueOf_eq conf recvData curCmd words, queueFor, queueFor, counts.table]
  have index := counts.index _ que found some_
  have moved := cmdQueIndexIncrement_eq counts _ que found some_
  have entry := List.getElem?_eq_getElem
    (Nat.mod_lt (before.count (queueOf conf recvData)) (List.length_pos_of_ne_nil some_))
  -- the state behind the reply is the same for every reply
  generalize nextIs : ({ now with
      mapCmdQueCount := Configuration.setCount now.mapCmdQueCount (queueOf conf recvData)
        ((before.count (queueOf conf recvData) + 1) % que.length) } : Configuration) = next at moved
  refine ⟨next, replyFor host next curCmd (queueOf conf recvData) _,
    nextIs ▸ counts_next counts _ que found some_, rfl, entry, ?_⟩
  simp only [doResponse, words, Option.bind_eq_bind, Option.bind_some, key, counts.table, found,
    Configuration.getCmdQueIndex, index, moved]
  split
  · rw [Option.bind_some, entry, Option.bind_some]
  · rfl

/-- Without a queue, or with an empty one, there is no reply. -/
theorem doResponse_found (counts : Counts conf before now) (next : Configuration) (reply : Reply)
    (done : doResponse host now recvData = some (next, reply)) :
    ∃ curCmd que, getImapCommand recvData = some curCmd ∧
      conf.mapCmdQue.lookup (queueOf conf recvData) = some que ∧ que ≠ [] := by
  simp only [doResponse, Option.bind_eq_bind] at done
  obtain ⟨curCmd, words, done⟩ := Option.bind_eq_some_iff.mp done
  obtain ⟨que, found, done⟩ := Option.bind_eq_some_iff.mp done
  obtain ⟨index, _, done⟩ := Option.bind_eq_some_iff.mp done
  obtain ⟨_, _, done⟩ := Option.bind_eq_some_iff.mp done
  obtain ⟨queCmd, entry, _⟩ := Option.bind_eq_some_iff.mp done
  refine ⟨curCmd, que, words, ?_, ?_⟩
  · rw [queueOf_eq conf recvData curCmd words, queueFor, ← counts.table]
    exact found
  · rintro rfl
    simp at entry

end Step

theorem handleAll_counts (host : Host) (conf now : Configuration) (before commands : List Bytes)
    (counts : Counts conf before now) :
    (∃ replies, handleAll host now commands = some replies ∧ InTurn conf before commands replies) ↔
      Answerable conf before commands := by
  induction commands generalizing now before with
  | nil => exact iff_of_true ⟨[], rfl, rfl⟩ trivial
  | cons recvData commands ih =>
    rw [Answerable, AnswerableNext, ← getImapCommand_isSome_iff]
    constructor
    · rintro ⟨replies, done, inTurn⟩
      -- a line that is answered was answerable, and so are the others behind it
      obtain ⟨⟨next, reply⟩, responded, done⟩ := Option.bind_eq_some_iff.mp done
      obtain ⟨later, rest, same⟩ := Option.bind_eq_some_iff.mp done
      obtain ⟨curCmd, que, words, found, some_⟩ := doResponse_found host recvData counts next reply
        responded
      obtain ⟨next', reply', counts', name, entry, eq⟩ :=
        doResponse_eq host recvData counts curCmd que
        words found some_
      rw [responded] at eq
      obtain ⟨fits, same'⟩ := Option.ite_none_right_eq_some.mp eq.symm
      obtain ⟨rfl, rfl⟩ := Prod.mk.inj (Option.some.inj same')
      obtain rfl := Option.some.inj same
      refine ⟨⟨⟨curCmd, words⟩, que, found, some_, fits⟩, (ih next' _ counts').mp ⟨later, rest, ?_⟩⟩
      obtain ⟨_, _, _, both, _, _, _, inTurn⟩ := inTurn
      obtain ⟨rfl, rfl⟩ := List.cons.inj both
      rw [← name]
      exact inTurn
    · rintro ⟨⟨⟨curCmd, words⟩, que, found, some_, fits⟩, answerable⟩
      obtain ⟨next, reply, counts', name, entry, eq⟩ :=
        doResponse_eq host recvData counts curCmd que
        words found some_
      rw [if_pos fits] at eq
      obtain ⟨later, rest, inTurn⟩ := (ih next _ counts').mpr answerable
      refine ⟨reply :: later, ?_, que, reply, later, rfl, name, ?_, ?_, ?_⟩
      · simp only [handleAll, eq, Option.bind_eq_bind, Option.bind_some, rest]
      · rw [name]
        exact found
      · rw [name]
        exact entry
      · rw [name]
        exact inTurn

/-! ### Loaded configurations -/

/-- Every queue has a counter, which stands at 0. -/
def Fresh (conf : Configuration) : Prop :=
  conf.mapCmdQueCount = conf.mapCmdQue.map fun que => (que.1, 0)

theorem lookup_counters (m : List (Bytes × List Command)) (key : Bytes) (que : List Command)
    (found : m.lookup key = some que) : (m.map fun que => (que.1, 0)).lookup key = some 0 := by
  induction m with
  | nil => simp at found
  | cons pair m ih =>
    rw [List.lookup_cons] at found
    rw [List.map_cons, List.lookup_cons]
    cases same : key == pair.1 with
    | true => rfl
    | false =>
      rw [same] at found
      exact ih found

theorem counts_of_fresh (conf : Configuration) (fresh : Fresh conf) : Counts conf [] conf where
  table := rfl
  index := fun key que found _ => by
    rw [fresh, List.count_nil, Nat.zero_mod]
    exact lookup_counters conf.mapCmdQue key que found

theorem sectionLoop_invariant {α : Type} {P : α → Prop}
    {store : α → Bytes → Bytes → Except LoadError α}
    (keeps : ∀ a key value b, P a → store a key value = .ok b → P b) (lines rest : List Bytes)
    (a b : α) (start : P a) (done : sectionLoop store a lines = .ok (b, rest)) : P b := by
  induction lines generalizing a with
  | nil =>
    rw [sectionLoop] at done
    rw [← (Prod.mk.inj (Except.ok.inj done)).1]
    exact start
  | cons line lines ih =>
    rw [sectionLoop] at done
    split at done
    · exact ih a start done
    · rw [← (Prod.mk.inj (Except.ok.inj done)).1]
      exact start
    next key value _ =>
      split at done
      next b' stored => exact ih b' (keeps a key value b' start stored) done
      · simp at done
    · simp at done
    · simp at done

/-- Settings and commands leave the queues alone. -/
theorem Fresh.of_same {conf conf' : Configuration} (fresh : Fresh conf)
    (same : conf'.mapCmdQue = conf.mapCmdQue ∧ conf'.mapCmdQueCount = conf.mapCmdQueCount) :
    Fresh conf' := by
  rw [Fresh, same.1, same.2]
  exact fresh

theorem storeSetting_queues (host : Host) (hostname : Bytes) (conf conf' : Configuration)
    (key value : Bytes) (stored : storeSetting host hostname conf key value = .ok conf') :
    conf'.mapCmdQue = conf.mapCmdQue ∧ conf'.mapCmdQueCount = conf.mapCmdQueCount := by
  have formatted (change : Bytes → Configuration) (kept : ∀ text,
      (change text).mapCmdQue = conf.mapCmdQue ∧ (change text).mapCmdQueCount = conf.mapCmdQueCount)
      (done : (formatLine host hostname value).map change = .ok conf') :
      conf'.mapCmdQue = conf.mapCmdQue ∧ conf'.mapCmdQueCount = conf.mapCmdQueCount := by
    cases text : formatLine host hostname value with
    | error e => simp [text, Except.map] at done
    | ok text' =>
      rw [text] at done
      rw [← Except.ok.inj done]
      exact kept text'
  rw [storeSetting] at stored
  -- one case for each setting
  split at stored
  · rw [← Except.ok.inj stored]
    exact ⟨rfl, rfl⟩
  split at stored
  · split at stored
    · rw [← Except.ok.inj stored]
      exact ⟨rfl, rfl⟩
    · split at stored
      · rw [← Except.ok.inj stored]
        exact ⟨rfl, rfl⟩
      · simp at stored
  split at stored
  · refine formatted _ ?_ stored
    exact fun _ => ⟨rfl, rfl⟩
  split at stored
  · refine formatted _ ?_ stored
    exact fun _ => ⟨rfl, rfl⟩
  split at stored
  · rw [← Except.ok.inj stored]
    exact ⟨rfl, rfl⟩
  split at stored
  · rw [← Except.ok.inj stored]
    exact ⟨rfl, rfl⟩
  · simp at stored

theorem storeCommand_queues (conf conf' : Configuration) (key value : Bytes)
    (stored : storeCommand conf key value = .ok conf') :
    conf'.mapCmdQue = conf.mapCmdQue ∧ conf'.mapCmdQueCount = conf.mapCmdQueCount := by
  unfold storeCommand at stored
  split at stored
  · rw [← Except.ok.inj stored]
    exact ⟨rfl, rfl⟩
  · simp at stored

theorem mapInsert_counters (m : List (Bytes × List Command)) (key : Bytes) (que : List Command) :
    mapInsert (m.map fun que => (que.1, 0)) key 0 =
      (mapInsert m key que).map fun que => (que.1, 0) := by
  have keys : (m.map fun que => (que.1, 0)).map Prod.fst = m.map Prod.fst := by
    rw [List.map_map]
    rfl
  rw [mapInsert, mapInsert, keys]
  split
  · rfl
  · rw [List.map_append]
    rfl

theorem loadSection_fresh (host : Host) (conf conf' : Configuration) (lines rest : List Bytes)
    (strLine : Bytes) (fresh : Fresh conf)
    (loaded : loadSection host conf lines strLine = .ok (conf', rest)) : Fresh conf' := by
  rw [loadSection] at loaded
  split at loaded
  · rw [loadConfigHead] at loaded
    split at loaded
    · simp at loaded
    · exact sectionLoop_invariant (fun a key value b fresh stored =>
        fresh.of_same (storeSetting_queues host _ a b key value
          stored)) lines rest conf conf' fresh loaded
  · split at loaded
    · exact sectionLoop_invariant (fun a key value b fresh stored =>
        fresh.of_same (storeCommand_queues a b key value stored)) lines rest conf conf' fresh loaded
    · rw [loadCommandQues] at loaded
      split at loaded
      · simp at loaded
      · rw [← (Prod.mk.inj (Except.ok.inj loaded)).1, Fresh]
        simp only
        rw [fresh]
        exact mapInsert_counters conf.mapCmdQue _ _

theorem loadLoop_fresh (host : Host) (rounds : Nat) (conf conf' : Configuration)
    (lines : List Bytes) (fresh : Fresh conf)
    (loaded : loadLoop host rounds conf lines = .ok conf') : Fresh conf' := by
  induction rounds generalizing conf lines with
  | zero =>
    rw [loadLoop] at loaded
    exact Except.ok.inj loaded ▸ fresh
  | succ rounds ih =>
    cases lines with
    | nil =>
      rw [loadLoop] at loaded
      exact Except.ok.inj loaded ▸ fresh
    | cons line lines =>
      rw [loadLoop] at loaded
      split at loaded
      · simp at loaded
      · split at loaded
        · exact ih conf lines fresh loaded
        · split at loaded
          · simp at loaded
          · split at loaded
            next conf'' rest section_ =>
              exact ih conf'' rest
                (loadSection_fresh host conf conf'' _ rest _ fresh section_) loaded
            · simp at loaded

theorem loadConfig_fresh (host : Host) (file : Option Bytes) (conf : Configuration)
    (loaded : loadConfig host file = .ok conf) : Fresh conf := by
  cases file with
  | none => simp [loadConfig] at loaded
  | some text => exact loadLoop_fresh host _ .initial conf _ rfl loaded

/-- With a configuration that was loaded, commands that come one after the other are answered in
turn exactly when each of them has an entry to be answered with. -/
theorem handleAll_iff (host : Host) (file : Option Bytes) (conf : Configuration)
    (loaded : loadConfig host file = .ok conf) (commands : List Bytes) :
    (∃ replies, handleAll host conf commands = some replies ∧ InTurn conf [] commands replies) ↔
      Answerable conf [] commands :=
  handleAll_counts host conf conf [] commands
    (counts_of_fresh conf (loadConfig_fresh host file conf loaded))

/-- A file without `OTHER`. -/
def noOther : Bytes := ascii "[COMMANDS]\nLOGOUT_OK=4:00 OK\n\n[ZLOGOUT]\n01=LOGOUT_OK\n"

def noOtherLoaded : Configuration :=
  { Configuration.initial with
    mapCmd :=
      [(ascii "LOGOUT_OK", ⟨ascii "unknown", ascii "LOGOUT_OK", '4'.toUInt8, ascii "00 OK"⟩)]
    mapCmdQue := [(ascii "ZLOGOUT", [⟨ascii "01", ascii "LOGOUT_OK", '4'.toUInt8, ascii "00 OK"⟩])]
    mapCmdQueCount := [(ascii "ZLOGOUT", 0)] }

theorem loadConfig_noOther : loadConfig plainHost (some noOther) = .ok noOtherLoaded := by
  decide +kernel

/-- Commands that the file has an answer for. -/
theorem handleAll_iff_zlogout :
    (∃ replies, handleAll plainHost noOtherLoaded [ascii "1 ZLOGOUT\r\n", ascii "2 zlogout\r\n"] =
        some replies ∧
      InTurn noOtherLoaded [] [ascii "1 ZLOGOUT\r\n", ascii "2 zlogout\r\n"] replies) ↔
      Answerable noOtherLoaded [] [ascii "1 ZLOGOUT\r\n", ascii "2 zlogout\r\n"] :=
  handleAll_iff plainHost (some noOther) noOtherLoaded loadConfig_noOther _

/-- ZLOGOUT is answered, but then there is nothing for ZLOGIN. -/
theorem handleAll_noOther : loadConfig plainHost (some noOther) = .ok noOtherLoaded ∧
    ¬ ∃ replies, handleAll plainHost noOtherLoaded [ascii "1 ZLOGOUT\r\n", ascii "2 ZLOGIN a\r\n"] =
        some replies ∧
      InTurn noOtherLoaded [] [ascii "1 ZLOGOUT\r\n", ascii "2 ZLOGIN a\r\n"] replies := by
  refine ⟨loadConfig_noOther, ?_⟩
  rintro ⟨replies, answered, _⟩
  have refused : handleAll plainHost noOtherLoaded
      [ascii "1 ZLOGOUT\r\n", ascii "2 ZLOGIN a\r\n"] = none := by
    decide +kernel
  rw [refused] at answered
  simp at answered

end SimNsim
