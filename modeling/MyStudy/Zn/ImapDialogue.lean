import MyStudy.Zn.Cimap

/-!
# Dialogues

A trace falls into dialogues: a command with what follows it. With a server that never fails a
call, each command leaves one dialogue, whose responses are the next ones of the server.
-/
namespace Zn

open Program

def Event.response? : Event → Option Bytes
  | .received response => some response
  | _ => none

/-- A command and the events of its own after it. -/
structure Dialogue where
  verb : Verb
  options : CimapOptions
  sent : Bytes
  rest : List Event
  quiet : ∀ event ∈ rest, event.endsDialogue = false

namespace Dialogue

def events (d : Dialogue) : List Event := .command d.verb d.options d.sent :: d.rest

def responses (d : Dialogue) : List Bytes := d.rest.filterMap Event.response?

/-- The only command of a dialogue is the one it starts with. -/
theorem command_mem_events (d : Dialogue) (verb : Verb) (options : CimapOptions) (sent : Bytes)
    (member : .command verb options sent ∈ d.events) : d.verb = verb ∧ d.options = options := by
  rcases List.mem_cons.mp member with same | later
  · obtain ⟨rfl, rfl, _⟩ := Event.command.inj same
    exact ⟨rfl, rfl⟩
  · have := d.quiet _ later
    simp [Event.endsDialogue] at this

end Dialogue

/-! ### The responses to a command -/

/-- The responses before the next command. -/
def nextResponses (trace : List Event) : List Bytes :=
  (trace.takeWhile fun event => !event.endsDialogue).filterMap Event.response?

/-- What the server said to each command with this verb. -/
def responsesTo (verb : Verb) : List Event → List (List Bytes)
  | [] => []
  | .command verb' _ _ :: trace =>
    if verb' = verb then nextResponses trace :: responsesTo verb trace else responsesTo verb trace
  | _ :: trace => responsesTo verb trace

theorem responsesTo_received (verb : Verb) (response : Bytes) (trace : List Event) :
    responsesTo verb (.received response :: trace) = responsesTo verb trace := rfl

theorem responsesTo_quiet (verb : Verb) (front trace : List Event)
    (quiet : ∀ event ∈ front, event.endsDialogue = false) :
    responsesTo verb (front ++ trace) = responsesTo verb trace := by
  induction front with
  | nil => rfl
  | cons event front ih =>
    have later := ih fun event' member => quiet event' (List.mem_cons_of_mem event member)
    cases event with
    | command verb' options sent =>
      have := quiet _ List.mem_cons_self
      simp [Event.endsDialogue] at this
    | literal sent => exact later
    | cmdEnd sent => exact later
    | received response => exact later
    | deleted loginId =>
      have := quiet _ List.mem_cons_self
      simp [Event.endsDialogue] at this

/-- In a trace of dialogues the responses to a verb are those of its dialogues. -/
theorem responsesTo_dialogues (verb : Verb) (dialogues : List Dialogue) (trace : List Event)
    (ended : ∀ event ∈ trace, ∃ loginId, event = .deleted loginId) :
    responsesTo verb (dialogues.flatMap Dialogue.events ++ trace) =
      (dialogues.filter (·.verb = verb)).map Dialogue.responses := by
  induction dialogues with
  | nil =>
    rw [List.flatMap_nil, List.nil_append]
    induction trace with
    | nil => rfl
    | cons event trace ih =>
      obtain ⟨loginId, rfl⟩ := ended event List.mem_cons_self
      exact ih fun event member => ended event (List.mem_cons_of_mem _ member)
  | cons d dialogues ih =>
    -- the responses to this command end where the next dialogue begins
    have silent : nextResponses (dialogues.flatMap Dialogue.events ++ trace) = [] := by
      cases dialogues with
      | nil =>
        cases trace with
        | nil => rfl
        | cons event trace =>
          obtain ⟨loginId, rfl⟩ := ended event List.mem_cons_self
          rfl
      | cons d' dialogues => simp [nextResponses, Dialogue.events, Event.endsDialogue]
    have next : nextResponses (d.rest ++ (dialogues.flatMap Dialogue.events ++ trace)) =
        d.responses := by
      rw [nextResponses] at silent ⊢
      rw [List.takeWhile_append_of_pos (by simpa using d.quiet), List.filterMap_append, silent,
        List.append_nil, Dialogue.responses]
    rw [List.flatMap_cons, List.append_assoc, Dialogue.events, List.cons_append, responsesTo,
      responsesTo_quiet verb d.rest _ d.quiet, ih, next]
    by_cases same : d.verb = verb <;> simp [same]

/-! ### A server that never fails a call -/

section Reliable

variable (responses : Nat → Bytes) (fit : ∀ call, (responses call).length ≤ maxBuffer)

/-- The worlds before and after these dialogues. -/
def Ran (dialogues : List Dialogue) (w w' : World) : Prop :=
  w'.trace = w.trace ++ dialogues.flatMap Dialogue.events ∧
    w'.readCount = w.readCount + (dialogues.flatMap Dialogue.responses).length ∧
      w'.queue = w.queue

theorem Ran.refl (w : World) : Ran [] w w := ⟨by simp, rfl, rfl⟩

theorem Ran.trans {first second : List Dialogue} {w₁ w₂ w₃ : World} (ran : Ran first w₁ w₂)
    (ran' : Ran second w₂ w₃) : Ran (first ++ second) w₁ w₃ := by
  obtain ⟨trace, reads, queue⟩ := ran
  obtain ⟨trace', reads', queue'⟩ := ran'
  refine ⟨by simp [trace', trace], ?_, queue'.trans queue⟩
  rw [reads', reads, List.flatMap_append, List.length_append, Nat.add_assoc]

theorem Server.reliable_taken (call length : Nat) :
    (Server.reliable responses fit).taken call length = length := rfl

theorem ensures_read_reliable {readBuf : Bytes} {w : World} {Q : Bytes → World → Prop}
    {E : ImapError → World → Prop}
    (post : Q (responses w.readCount ++ readBuf.drop (responses w.readCount).length)
      (w.receives (responses w.readCount))) :
    Ensures (read (.reliable responses fit) readBuf) w Q E := by
  apply ensures_read
  · intro response reads
    obtain rfl : responses w.readCount = response := Option.some.inj reads
    exact post
  · intro none_
    cases none_

theorem ensures_sendCommand_reliable {verb : Verb} {options : CimapOptions} {line : Bytes}
    {w : World} {Q : Unit → World → Prop} {E : ImapError → World → Prop} (some_ : line ≠ [])
    (post : Q () (w.wrote (.command verb options line))) :
    Ensures (sendCommand (.reliable responses fit) verb options line) w Q E :=
  ensures_sendCommand _ some_ (fun _ => post) fun short => absurd rfl short

/-- A command with one line and one response. -/
def lineDialogue (verb : Verb) (options : CimapOptions) (line : Bytes) (call : Nat) : Dialogue :=
  ⟨verb, options, line, [.received (responses call)], by simp [Event.endsDialogue]⟩

theorem performLine_ran (verb : Verb) (options : CimapOptions) (line : Bytes) (w : World)
    (E : ImapError → World → Prop) (some_ : line ≠ []) :
    Ensures (performLine (.reliable responses fit) verb options line) w
      (fun _ => Ran [lineDialogue responses verb options line w.readCount] w) E := by
  rw [performLine, ensures_bind]
  apply ensures_sendCommand_reliable responses fit some_
  rw [ensures_bind]
  apply ensures_read_reliable
  exact ⟨by simp [World.wrote, World.receives, Dialogue.events, lineDialogue], rfl, rfl⟩

/-- An APPEND has one response if its literal is empty, and else two. -/
def appendRest (options : CimapOptions) (call : Nat) : List Event :=
  .received (responses call) :: .literal options.literal ::
    if options.literal = [] then []
    else [.cmdEnd cimapCmdEnd, .received (responses (call + 1))]

def appendDialogue (options : CimapOptions) (call : Nat) : Dialogue :=
  ⟨.append, options, appendLine options, appendRest responses options call, by
    rw [appendRest]
    split <;> simp [Event.endsDialogue]⟩

theorem appendDialogue_responses (options : CimapOptions) (call : Nat) :
    (appendDialogue responses options call).responses =
      if options.literal = [] then [responses call]
      else [responses call, responses (call + 1)] := by
  change (appendRest responses options call).filterMap Event.response? = _
  rw [appendRest]
  split <;> rfl

theorem performAppend_ran (options : CimapOptions) (w : World) (E : ImapError → World → Prop) :
    Ensures (performAppend (.reliable responses fit) options) w
      (fun _ => Ran [appendDialogue responses options w.readCount] w) E := by
  have notEmpty : appendLine options ≠ [] := by simp [appendLine, cimapTag, ascii]
  rw [performAppend, ensures_bind]
  apply ensures_sendCommand_reliable responses fit notEmpty
  rw [ensures_bind]
  apply ensures_read_reliable
  rw [ensures_bind]
  apply ensures_appendLiteral _ rfl
  cases literal : options.literal with
  -- nothing is written, and the command returns
  | nil =>
    refine ⟨?_, ?_, rfl⟩
    · simp [World.wrote, World.receives, Dialogue.events, appendDialogue, appendRest, literal]
    · simp [World.wrote, World.receives, appendDialogue_responses, literal]
  | cons c message =>
    simp only [List.isEmpty_cons, Bool.not_false, if_true, ensures_bind]
    apply ensures_write
    rw [Server.reliable_taken, List.take_length]
    apply ensures_read_reliable
    refine ⟨?_, ?_, rfl⟩
    · simp [World.wrote, World.receives, Dialogue.events, appendDialogue, appendRest, literal]
    · rw [List.flatMap_singleton, appendDialogue_responses, if_neg (by simp [literal])]
      rfl

/-- The dialogues of a loop, each of which goes on with the responses after the one before. -/
def loopDialogues {α : Type} (dialogue : α → Nat → Dialogue) (call : Nat) : List α → List Dialogue
  | [] => []
  | a :: rest =>
    dialogue a call ::
      loopDialogues dialogue (call + (dialogue a call).responses.length) rest

theorem mem_loopDialogues {α : Type} (dialogue : α → Nat → Dialogue) (call : Nat) (l : List α)
    (d : Dialogue) (member : d ∈ loopDialogues dialogue call l) :
    ∃ a ∈ l, ∃ n, dialogue a n = d := by
  induction l generalizing call with
  | nil => simp [loopDialogues] at member
  | cons a rest ih =>
    rw [loopDialogues, List.mem_cons] at member
    rcases member with rfl | later
    · exact ⟨a, by simp, call, rfl⟩
    · obtain ⟨a', among, n, same⟩ := ih _ later
      exact ⟨a', List.mem_cons_of_mem a among, n, same⟩

theorem exists_loopDialogue {α : Type} (dialogue : α → Nat → Dialogue) (call : Nat) (l : List α)
    (a : α) (member : a ∈ l) : ∃ n, dialogue a n ∈ loopDialogues dialogue call l := by
  induction l generalizing call with
  | nil => simp at member
  | cons a' rest ih =>
    rw [loopDialogues]
    rcases List.mem_cons.mp member with rfl | later
    · exact ⟨call, by simp⟩
    · obtain ⟨n, among⟩ := ih (call + (dialogue a' call).responses.length) later
      exact ⟨n, List.mem_cons_of_mem _ among⟩

theorem loop_ran {α : Type} (f : α → Imap Unit) (dialogue : α → Nat → Dialogue)
    (E : ImapError → World → Prop)
    (step : ∀ a w, Ensures (f a) w (fun _ => Ran [dialogue a w.readCount] w) E)
    (l : List α) (w : World) :
    Ensures (l.forM f) w (fun _ => Ran (loopDialogues dialogue w.readCount l) w) E := by
  induction l generalizing w with
  | nil => exact .refl w
  | cons a rest ih =>
    rw [List.forM, loopDialogues]
    apply Ensures.bind _ (step a w)
    intro _ w' here
    apply (ih w').mono _ fun _ _ thrown => thrown
    intro _ w'' later
    have next : w'.readCount = w.readCount + (dialogue a w.readCount).responses.length := by
      simpa using here.2.1
    rw [← next]
    exact here.trans later

/-! ### The end of the session -/

/-- The buffer of LOGOUT after its first `n` reads. -/
def logoutBuffer : Nat → Bytes → Nat → Bytes
  | _, readBuf, 0 => readBuf
  | call, readBuf, n + 1 =>
    logoutBuffer (call + 1) (responses call ++ readBuf.drop (responses call).length) n

/-- The loop of LOGOUT ends: some read leaves more in the buffer than the tag. -/
def LogoutEnds (call : Nat) (readBuf : Bytes) : Prop :=
  ∃ n, cstr (logoutBuffer responses call readBuf (n + 1)) ≠ cimapTag

theorem logoutLoop_step (rounds : Nat) (readBuf : Bytes) (w : World) (Q : Bool → World → Prop)
    (E : ImapError → World → Prop)
    (ends : cstr (logoutBuffer responses w.readCount readBuf 1) ≠ cimapTag →
      Q true (w.receives (responses w.readCount)))
    (goes : cstr (logoutBuffer responses w.readCount readBuf 1) = cimapTag →
      Ensures (logoutLoop (.reliable responses fit) rounds
        (logoutBuffer responses w.readCount readBuf 1)) (w.receives (responses w.readCount)) Q E) :
    Ensures (logoutLoop (.reliable responses fit) (rounds + 1) readBuf) w Q E := by
  rw [logoutLoop, ensures_bind]
  apply ensures_read_reliable
  split
  next more => exact goes more
  next other => exact ends other

theorem logoutLoop_ends (rounds : Nat) (readBuf : Bytes) (w : World)
    (E : ImapError → World → Prop)
    (ends : ∃ n < rounds, cstr (logoutBuffer responses w.readCount readBuf (n + 1)) ≠ cimapTag) :
    Ensures (logoutLoop (.reliable responses fit) rounds readBuf) w (fun _ _ => True) E := by
  induction rounds generalizing readBuf w with
  | zero =>
    obtain ⟨n, impossible, _⟩ := ends
    exact absurd impossible (Nat.not_lt_zero n)
  | succ rounds ih =>
    apply logoutLoop_step responses fit rounds readBuf w _ E fun _ => trivial
    intro goes
    -- the read that ends the loop is a later one
    obtain ⟨n, below, other⟩ := ends
    cases n with
    | zero => exact absurd goes other
    | succ n => exact ih _ _ ⟨n, Nat.lt_of_succ_lt_succ below, other⟩

theorem logoutLoop_runs (rounds : Nat) (readBuf : Bytes) (w : World)
    (E : ImapError → World → Prop) (thrown : ∀ e w', E e w')
    (forever : ¬ LogoutEnds responses w.readCount readBuf) :
    Ensures (logoutLoop (.reliable responses fit) rounds readBuf) w (fun _ _ => False) E := by
  induction rounds generalizing readBuf w with
  | zero => exact thrown _ _
  | succ rounds ih =>
    apply logoutLoop_step
    · intro other
      exact forever ⟨0, other⟩
    · intro _
      exact ih _ _ fun ⟨n, other⟩ => forever ⟨n + 1, other⟩

theorem performLogout_ends (rounds : Nat) (w : World) (E : ImapError → World → Prop)
    (ends : ∃ n < rounds, cstr (logoutBuffer responses w.readCount emptyBuffer (n + 1)) ≠
      cimapTag) :
    Ensures (performLogout (.reliable responses fit) rounds) w (fun _ _ => True) E := by
  rw [performLogout, ensures_bind]
  apply ensures_sendCommand_reliable responses fit (by decide)
  exact logoutLoop_ends responses fit rounds emptyBuffer _ E ends

theorem performLogout_runs (rounds : Nat) (w : World) (E : ImapError → World → Prop)
    (thrown : ∀ e w', E e w') (forever : ¬ LogoutEnds responses w.readCount emptyBuffer) :
    Ensures (performLogout (.reliable responses fit) rounds) w (fun _ _ => False) E := by
  rw [performLogout, ensures_bind]
  apply ensures_sendCommand_reliable responses fit (by decide)
  exact logoutLoop_runs responses fit rounds emptyBuffer _ E thrown forever

end Reliable

end Zn
