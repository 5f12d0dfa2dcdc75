import MyStudy.Lib.History
import MyStudy.Zn.Cimap

/-!
# The APPEND command

The literal of an APPEND may only be sent once the server has asked for it. The client sends it
after any first response.
-/
namespace Zn

open Program History

/-- The server asks for the literal. -/
def isContinuation (response : Bytes) : Bool :=
  decide (response.head? = some '+'.toUInt8) && !refuses response

/-- No byte of a literal without a response starting with "+" before it, or after a refusal. -/
def AwaitsContinuation (before : List Event) (event : Event) : Prop :=
  ∀ sent, event = .literal sent → sent ≠ [] →
    (∃ response, .received response ∈ before ∧ response.head? = some '+'.toUInt8) ∧
      ∀ response, .received response ∈ before → refuses response = false

section Pieces

variable (server : Server)

/-- The loop throws nothing, so that it may be followed by any `E`. -/
theorem appendLiteral_pieces (E : ImapError → World → Prop) (rounds : Nat) (bufp : Bytes)
    (w : World) :
    Ensures (appendLiteral server rounds bufp) w
      (fun _ w' => ∃ pieces : List Bytes, w'.trace = w.trace ++ pieces.map Event.literal) E := by
  induction rounds generalizing bufp w with
  | zero => exact ⟨[], by simp⟩
  | succ rounds ih =>
    refine Ensures.bind (fun _ w' => ∃ piece, w'.trace = w.trace ++ [.literal piece]) ⟨_, rfl⟩ ?_
    rintro ret w' ⟨piece, trace⟩
    cases ret with
    | none => exact ⟨[piece], trace⟩
    | some ret =>
      simp only
      split
      · exact ⟨[piece], trace⟩
      · split
        · refine (ih _ w').mono ?_ fun _ _ thrown => thrown
          rintro _ w'' ⟨pieces, trace'⟩
          exact ⟨piece :: pieces, by simp [trace', trace]⟩
        · exact ⟨[piece], trace⟩

/-- The first call of the loop decides whether anything is sent. -/
theorem appendLiteral_first (E : ImapError → World → Prop) (rounds : Nat) (bufp : Bytes)
    (w : World) :
    Ensures (appendLiteral server (rounds + 1) bufp) w
      (fun _ w' => ∃ pieces : List Bytes, w'.trace = w.trace ++ pieces.map Event.literal ∧
        ((∃ piece ∈ pieces, piece ≠ []) ↔ server.taken w.writeCount bufp.length ≠ 0)) E := by
  have bound := server.taken_le w.writeCount bufp.length
  have first (piece : Bytes) (here : piece = bufp.take (server.taken w.writeCount bufp.length)) :
      piece ≠ [] ↔ server.taken w.writeCount bufp.length ≠ 0 := by
    rw [here, ne_eq, List.take_eq_nil_iff, not_or]
    refine ⟨And.left, fun some_ => ⟨some_, ?_⟩⟩
    rintro rfl
    exact some_ (Nat.le_zero.mp bound)
  refine Ensures.bind (fun ret w' => w'.trace = w.trace ++
    [.literal (bufp.take (server.taken w.writeCount bufp.length))] ∧
      ret.getD 0 = server.taken w.writeCount bufp.length) ⟨rfl, rfl⟩ ?_
  rintro ret w' ⟨trace, taken⟩
  -- the loop ends behind the first call in three of the four branches
  have alone : ∃ pieces : List Bytes, w'.trace = w.trace ++ pieces.map Event.literal ∧
      ((∃ piece ∈ pieces, piece ≠ []) ↔ server.taken w.writeCount bufp.length ≠ 0) :=
    ⟨[_], trace, by simpa using first _ rfl⟩
  cases ret with
  | none => exact alone
  | some ret =>
    simp only
    split
    · exact alone
    next nonzero =>
      split
      · refine (appendLiteral_pieces server E rounds _ w').mono ?_ fun _ _ thrown => thrown
        rintro _ w'' ⟨pieces, trace'⟩
        have taken' : ret = server.taken w.writeCount bufp.length := taken
        refine ⟨_ :: pieces, by simp [trace', trace]; rfl, ?_⟩
        rw [← taken', List.exists_mem_cons_iff]
        refine iff_of_true (Or.inl ?_) nonzero
        exact taken' ▸ (first _ rfl).mpr (taken' ▸ nonzero)
      · exact alone

/-- The events of an APPEND: it ends with its line, or there is a first response, and then come
the pieces of the literal. -/
inductive AppendEvents (options : CimapOptions) (w : World) : List Event → Prop
  | incomplete (sent : Bytes) :
      server.taken w.writeCount (appendLine options).length ≠ (appendLine options).length →
      AppendEvents options w [.command .append options sent]
  | unread (sent : Bytes) : server.reads w.readCount = none →
      AppendEvents options w [.command .append options sent]
  | answered (sent response : Bytes) (pieces : List Bytes) (rest : List Event) :
      server.taken w.writeCount (appendLine options).length = (appendLine options).length →
      server.reads w.readCount = some response →
      ((∃ piece ∈ pieces, piece ≠ []) ↔
        server.taken (w.writeCount + 1) options.literal.length ≠ 0) →
      (∀ event ∈ rest, ∀ piece, event ≠ .literal piece) →
      AppendEvents options w
        (.command .append options sent :: .received response ::
          (pieces.map Event.literal ++ rest))

theorem performAppend_events (options : CimapOptions) (w : World) :
    AppendEvents server options w (eventsOf (performAppend server options) w) := by
  suffices run : Ensures (performAppend server options) w
      (fun _ w' => ∃ events, w'.trace = w.trace ++ events ∧ AppendEvents server options w events)
      (fun _ w' => ∃ events, w'.trace = w.trace ++ events ∧
        AppendEvents server options w events) by
    obtain ⟨events, trace, events_⟩ := run.finalState
    rw [eventsOf, trace, List.drop_left]
    exact events_
  have notEmpty : appendLine options ≠ [] := by simp [appendLine, cimapTag, ascii]
  rw [performAppend, ensures_bind]
  refine ensures_sendCommand server notEmpty (fun complete => ?_)
    fun short => ⟨_, rfl, .incomplete _ short⟩
  rw [ensures_bind]
  refine ensures_read server (fun response reads => ?_) fun none_ => ⟨_, rfl, .unread _ none_⟩
  refine Ensures.bind _ (appendLiteral_first server _ _ _ _) ?_
  rintro written w₁ ⟨pieces, trace, first⟩
  -- what follows the literal is not one itself, however it ends
  have ends (rest : List Event) (quiet : ∀ event ∈ rest, ∀ piece, event ≠ .literal piece)
      (w₂ : World) (trace' : w₂.trace = w₁.trace ++ rest) :
      ∃ events, w₂.trace = w.trace ++ events ∧ AppendEvents server options w events :=
    ⟨_, by rw [trace', trace]; simp [World.receives, World.wrote]; rfl,
      .answered _ response pieces rest complete reads first quiet⟩
  split
  · refine Ensures.bind (fun _ w₂ => ∃ sent, w₂.trace = w₁.trace ++ [.cmdEnd sent]) ⟨_, rfl⟩ ?_
    rintro _ w₂ ⟨sent, trace'⟩
    rw [ensures_bind]
    refine ensures_read server (fun final _ => ?_) fun _ => ends [.cmdEnd sent] (by simp) _ trace'
    exact ends [.cmdEnd sent, .received final] (by simp) _ (by simp [World.receives, trace'])
  · exact ends [] (by simp) w₁ (by simp)

end Pieces

/-- The events before the literal decide whether the client has waited. -/
theorem awaits_iff (quiet rest : List Event) (pieces : List Bytes)
    (quiet_ : ∀ event ∈ quiet, ∀ piece, event ≠ .literal piece)
    (rest_ : ∀ event ∈ rest, ∀ piece, event ≠ .literal piece) :
    Lawful AwaitsContinuation (quiet ++ (pieces.map Event.literal ++ rest)) ↔
      ((∃ piece ∈ pieces, piece ≠ []) →
        (∃ response, .received response ∈ quiet ∧ response.head? = some '+'.toUInt8) ∧
          ∀ response, .received response ∈ quiet → refuses response = false) := by
  have free (events : List Event) (none_ : ∀ event ∈ events, ∀ piece, event ≠ .literal piece)
      (past : List Event → List Event) :
      Lawful (fun before => AwaitsContinuation (past before)) events :=
    lawful_of_forall _ events fun event member before sent same =>
      absurd same (none_ event member sent)
  have start : Lawful AwaitsContinuation quiet := free quiet quiet_ id
  have finish := free rest rest_ fun before => quiet ++ (pieces.map Event.literal ++ before)
  rw [lawful_append, lawful_append, and_iff_right start, and_iff_left finish]
  constructor
  · rintro lawful ⟨piece, member, some_⟩
    -- at this piece only other pieces have come after the quiet events
    obtain ⟨done, later, rfl⟩ := List.append_of_mem member
    have here := lawful (done.map Event.literal) (.literal piece) (later.map Event.literal)
      (by simp) piece rfl some_
    simpa using here
  · rintro waited before event after parts piece rfl some_
    obtain ⟨done, more, rfl, rfl, cut⟩ := List.map_eq_append_iff.mp parts
    have member : piece ∈ more := by
      obtain ⟨piece', later, rfl, same, _⟩ := List.map_eq_cons_iff.mp cut
      rw [Event.literal.inj same]
      simp
    simpa using waited ⟨piece, List.mem_append_right done member, some_⟩

/-- The literal waits for the server exactly if there is nothing to send, or the response to the
line asks for it. -/
theorem append_awaits_continuation_iff (server : Server) (options : CimapOptions) (w : World) :
    Lawful AwaitsContinuation (eventsOf (performAppend server options) w) ↔
      (server.taken w.writeCount (appendLine options).length = (appendLine options).length →
        ∀ response, server.reads w.readCount = some response →
          server.taken (w.writeCount + 1) options.literal.length ≠ 0 →
            isContinuation response = true) := by
  generalize ran : eventsOf (performAppend server options) w = events
  cases ran ▸ performAppend_events server options w with
  | incomplete sent short =>
    exact iff_of_true ((lawful_singleton _ _).mpr fun _ same => by simp at same)
      fun complete => absurd complete short
  | unread sent none_ =>
    refine iff_of_true ((lawful_singleton _ _).mpr fun _ same => by simp at same) ?_
    intro _ response some_
    rw [none_] at some_
    simp at some_
  | answered sent response pieces rest complete reads first quiet =>
    have iff := awaits_iff [.command .append options sent, .received response] rest pieces
      (by simp) quiet
    rw [List.cons_append, List.singleton_append] at iff
    rw [iff, first]
    simp [complete, reads, isContinuation]

/-- A server that refuses everything, and takes whatever it is sent. -/
def refusingServer : Server := .reliable (fun _ => ascii "00 NO over quota\r\n") fun _ => by decide

def helloOptions : CimapOptions := { mailboxname := ascii "/Inbox", literal := ascii "hello" }

/-- It is sent the message all the same. -/
theorem append_sends_after_refusal :
    ¬ Lawful AwaitsContinuation
      (eventsOf (performAppend refusingServer helloOptions) ⟨0, 0, [], []⟩) := by
  intro lawful
  obtain ⟨⟨response, received, plus⟩, _⟩ := lawful
    [.command .append helloOptions (appendLine helloOptions),
      .received (ascii "00 NO over quota\r\n")]
    (.literal (ascii "hello")) [.cmdEnd cimapCmdEnd, .received (ascii "00 NO over quota\r\n")]
    (by decide +kernel) _ rfl (by decide)
  have same : response = ascii "00 NO over quota\r\n" := by simpa using received
  rw [same] at plus
  exact absurd plus (by decide)

end Zn
