import MyStudy.Zn.Cimap

/-!
# The literal of an APPEND

`perform` writes the literal in a loop, for a write may take a part of it only. The result of a
write is kept in an unsigned variable, in which -1 is as good as the whole rest.
-/
namespace Zn

open Program

variable (server : Server)

/-- A write of the loop gives -1, after others that each took a part of what was left. -/
inductive LiteralFails : (call rest : Nat) → Prop where
  | now {call rest : Nat} (fails : server.writes call rest = none) : LiteralFails call rest
  | later {call rest : Nat} (taken : Fin (rest + 1)) (takes : server.writes call rest = some taken)
      (some_ : 0 < taken.val) (short : taken.val < rest)
      (then_ : LiteralFails (call + 1) (rest - taken)) :
      LiteralFails call rest

/-- The loop is reached: the line was written, and a response read. -/
def LiteralReached (options : CimapOptions) (w : World) : Prop :=
  server.taken w.writeCount (appendLine options).length = (appendLine options).length ∧
    server.reads w.readCount ≠ none

/-- The pieces of the literal that were written. -/
def literalsOf (events : List Event) : List Bytes :=
  events.filterMap fun
    | .literal sent => some sent
    | _ => none

/-- `perform` got past the loop, and has written the end of the command. -/
def PastLiteral (events : List Event) : Prop := ∃ sent, .cmdEnd sent ∈ events

theorem literalsOf_append (events events' : List Event) :
    literalsOf (events ++ events') = literalsOf events ++ literalsOf events' :=
      List.filterMap_append

theorem literalsOf_literals (pieces : List Bytes) :
    literalsOf (pieces.map Event.literal) = pieces := by
  rw [literalsOf, List.filterMap_map]
  exact List.filterMap_some

theorem not_past_literals (pieces : List Bytes) : ¬ PastLiteral (pieces.map Event.literal) := by
  rintro ⟨sent, member⟩
  obtain ⟨_, _, same⟩ := List.mem_map.mp member
  cases same

/-! ### The loop -/

/-- What the loop has done. -/
structure LiteralLoop (w : World) (bufp : Bytes) (past : Bool) (pieces : List Bytes)
    (w' : World) : Prop where
  trace : w'.trace = w.trace ++ pieces.map Event.literal
  reads : w'.readCount = w.readCount
  fails : LiteralFails server w.writeCount bufp.length →
    past = true ∧ (pieces.flatten = bufp ↔ bufp = [])
  writes : ¬ LiteralFails server w.writeCount bufp.length → past = true → pieces.flatten = bufp

variable {server}

theorem LiteralFails.cases_some {call rest : Nat} {taken : Fin (rest + 1)}
    (takes : server.writes call rest = some taken) :
    LiteralFails server call rest ↔
      0 < taken.val ∧ taken.val < rest ∧ LiteralFails server (call + 1) (rest - taken) := by
  constructor
  · intro fails
    cases fails with
    | now none_ =>
      rw [takes] at none_
      cases none_
    | later taken' takes' some_ short then_ =>
      obtain rfl : taken' = taken := Option.some.inj (takes'.symm.trans takes)
      exact ⟨some_, short, then_⟩
  · rintro ⟨some_, short, then_⟩
    exact .later taken takes some_ short then_

/-- A round that takes a part of the literal, and the rounds behind it. -/
theorem LiteralLoop.cons {w w' : World} {bufp : Bytes} {past : Bool} {pieces : List Bytes}
    {taken : Fin (bufp.length + 1)} (takes : server.writes w.writeCount bufp.length = some taken)
    (some_ : 0 < taken.val) (short : taken.val < bufp.length)
    (rest : LiteralLoop server (w.wrote (.literal (bufp.take taken))) (bufp.drop taken) past
      pieces w') :
    LiteralLoop server w bufp past (bufp.take taken :: pieces) w' := by
  have left : (bufp.drop taken).length = bufp.length - taken := List.length_drop
  -- the rounds that are left fail where all of them do
  have same : LiteralFails server w.writeCount bufp.length ↔
      LiteralFails server (w.writeCount + 1) (bufp.drop taken).length := by
    rw [LiteralFails.cases_some takes, left]
    exact ⟨fun fails => fails.2.2, fun fails => ⟨some_, short, fails⟩⟩
  have joined : (bufp.take taken :: pieces).flatten = bufp ↔ pieces.flatten = bufp.drop taken := by
    have cut : bufp.take taken ++ pieces.flatten = bufp.take taken ++ bufp.drop taken ↔
        pieces.flatten = bufp.drop taken := List.append_right_inj _
    rwa [List.take_append_drop] at cut
  refine ⟨?_, rest.reads, fun fails => ?_, fun fine went => ?_⟩
  · rw [rest.trace, World.wrote]
    simp
  · obtain ⟨went, whole⟩ := rest.fails (same.mp fails)
    refine ⟨went, iff_of_false (fun flat => ?_) fun nothing => ?_⟩
    · have nothing := congrArg List.length (whole.mp (joined.mp flat))
      rw [left, List.length_nil] at nothing
      omega
    · have zero := List.length_eq_zero_iff.mpr nothing
      omega
  · exact joined.mpr (rest.writes (fun fails => fine (same.mpr fails)) went)

theorem appendLiteral_loop (rounds : Nat) (bufp : Bytes) (w : World) (enough : bufp.length < rounds)
    (E : ImapError → World → Prop) :
    Ensures (appendLiteral server rounds bufp) w
      (fun past w' => ∃ pieces, LiteralLoop server w bufp past pieces w') E := by
  induction rounds generalizing bufp w with
  | zero => omega
  | succ rounds ih =>
    rw [appendLiteral, ensures_bind]
    apply ensures_write
    rw [Server.taken]
    cases takes : server.writes w.writeCount bufp.length with
    | none =>
      -- the error looks like a write of all there is
      have fails : LiteralFails server w.writeCount bufp.length := .now takes
      refine ⟨[[]], rfl, rfl, fun _ => ⟨rfl, ?_⟩, fun fine => absurd fails fine⟩
      rw [List.flatten_singleton]
      exact eq_comm
    | some taken =>
      simp only [Option.map_some, Option.getD_some]
      have bound := taken.isLt
      split
      next zero =>
        refine ⟨[bufp.take taken], rfl, rfl, fun fails => ?_, fun _ went => ?_⟩
        · have some_ := ((LiteralFails.cases_some takes).mp fails).1
          omega
        · cases went
      next some_ =>
        split
        next short =>
          refine (ih (bufp.drop taken) _ (by rw [List.length_drop]; omega)).mono ?_
            fun _ _ thrown => thrown
          rintro past w' ⟨pieces, rest⟩
          exact ⟨_, rest.cons takes (by omega) short⟩
        next whole =>
          refine ⟨[bufp.take taken], rfl, rfl, fun fails => ?_, fun _ _ => ?_⟩
          · exact absurd ((LiteralFails.cases_some takes).mp fails).2.1 whole
          · rw [List.flatten_singleton]
            exact List.take_of_length_le (by omega)

/-! ### The command -/

/-- What `perform` has done, with the value it returned if it did. -/
structure AppendRun (server : Server) (options : CimapOptions) (w : World) (result : Option Bool)
    (events : List Event) : Prop where
  early : ¬ LiteralReached server options w → ¬ PastLiteral events
  reached : LiteralReached server options w → ∃ (past : Bool) (pieces : List Bytes),
    (PastLiteral events ↔ past = true) ∧ literalsOf events = pieces ∧
      (LiteralFails server (w.writeCount + 1) options.literal.length →
        past = true ∧ (pieces.flatten = options.literal ↔ options.literal = [])) ∧
      (¬ LiteralFails server (w.writeCount + 1) options.literal.length → past = true →
        pieces.flatten = options.literal) ∧
      (past = true → (result = some true ↔ server.reads (w.readCount + 1) ≠ none))

/-- The value that a run returns. -/
def valueOf {α : Type} (m : Imap α) (w : World) : Option α :=
  match m w with
  | .ok a _ => some a
  | .error _ _ => none

theorem performAppend_run (options : CimapOptions) (w : World) :
    AppendRun server options w (valueOf (performAppend server options) w)
      (eventsOf (performAppend server options) w) := by
  suffices run : Ensures (performAppend server options) w
      (fun value w' => ∃ events, w'.trace = w.trace ++ events ∧
        AppendRun server options w (some value) events)
      (fun _ w' =>
        ∃ events, w'.trace = w.trace ++ events ∧ AppendRun server options w none events) by
    rw [Ensures] at run
    rw [eventsOf, finalState, valueOf]
    cases ran : performAppend server options w with
    | ok value w' =>
      rw [ran] at run
      obtain ⟨events, trace, here⟩ := run
      simp only [trace, List.drop_left]
      exact here
    | error e w' =>
      rw [ran] at run
      obtain ⟨events, trace, here⟩ := run
      simp only [trace, List.drop_left]
      exact here
  have notEmpty : appendLine options ≠ [] := by simp [appendLine, cimapTag, ascii]
  rw [performAppend, ensures_bind]
  refine ensures_sendCommand server notEmpty (fun complete => ?_) fun short => ?_
  · rw [ensures_bind]
    refine ensures_read server (fun response reads => ?_) fun none_ => ?_
    · have reached : LiteralReached server options w :=
        ⟨complete, by rw [World.wrote] at reads; rw [reads]; simp⟩
      refine Ensures.bind _ (appendLiteral_loop _ _ _ (Nat.lt_succ_self _) _) ?_
      rintro past w₁ ⟨pieces, loop⟩
      obtain ⟨front, frontEq⟩ : ∃ front : List Event, front =
          [.command .append options (appendLine options), .received response] := ⟨_, rfl⟩
      have trace : w₁.trace = w.trace ++ (front ++ pieces.map Event.literal) := by
        rw [loop.trace, frontEq, World.receives, World.wrote]
        simp
      have quiet : literalsOf front = [] ∧ ¬ PastLiteral front := by
        rw [frontEq]
        exact ⟨rfl, by simp [PastLiteral]⟩
      have nextRead : w₁.readCount = w.readCount + 1 := loop.reads
      -- what the loop has written, with the events behind it
      have ends (result : Option Bool) (rest : List Event) (silent : literalsOf rest = [])
          (went : PastLiteral rest ↔ past = true)
          (told : past = true → (result = some true ↔ server.reads (w.readCount + 1) ≠ none)) :
          AppendRun server options w result (front ++ pieces.map Event.literal ++ rest) := by
        refine ⟨fun early => absurd reached early,
          fun _ => ⟨past, pieces, ?_, ?_, loop.fails, loop.writes,
          told⟩⟩
        · rw [← went]
          constructor
          · rintro ⟨sent, member⟩
            rcases List.mem_append.mp member with earlier | later
            · rcases List.mem_append.mp earlier with first | piece
              · exact absurd ⟨sent, first⟩ quiet.2
              · exact absurd ⟨sent, piece⟩ (not_past_literals pieces)
            · exact ⟨sent, later⟩
          · rintro ⟨sent, member⟩
            exact ⟨sent, by simp [member]⟩
        · rw [literalsOf_append, literalsOf_append, quiet.1, literalsOf_literals, silent]
          simp
      cases past with
      | false =>
        refine ⟨front ++ pieces.map Event.literal ++ [], by rw [trace]; simp, ?_⟩
        exact ends _ [] rfl (by simp [PastLiteral]) fun went => by cases went
      | true =>
        refine Ensures.bind (fun _ w₂ => w₂.readCount = w.readCount + 1 ∧
          ∃ sent, w₂.trace = w₁.trace ++ [.cmdEnd sent]) ⟨nextRead, _, rfl⟩ ?_
        rintro _ w₂ ⟨count, sent, trace'⟩
        rw [ensures_bind]
        refine ensures_read server (fun final reads' => ?_) fun none_ => ?_
        · refine ⟨front ++ pieces.map Event.literal ++ [.cmdEnd sent, .received final], ?_, ?_⟩
          · rw [World.receives, trace', trace]
            simp
          · refine ends _ _ rfl (by simp [PastLiteral]) fun _ => ?_
            rw [← count, reads']
            simp [checkResponse]
        · refine ⟨front ++ pieces.map Event.literal ++ [.cmdEnd sent], ?_, ?_⟩
          · rw [trace', trace]
            simp
          · refine ends _ _ rfl (by simp [PastLiteral]) fun _ => ?_
            rw [← count, none_]
            simp
    · -- no response
      refine ⟨[.command .append options (appendLine options)], rfl,
        fun _ => by simp [PastLiteral], ?_⟩
      exact fun reached => absurd none_ reached.2
  · refine ⟨[.command .append options _], rfl, fun _ => by simp [PastLiteral], ?_⟩
    exact fun reached => absurd reached.1 short

/-- Past the loop the whole literal is written, and a write that fails is reported, just when no
write of the loop gives -1; but for an empty literal, after which the response cannot be read. -/
theorem performAppend_literal_iff (server : Server) (options : CimapOptions) (w : World) :
    ((PastLiteral (eventsOf (performAppend server options) w) →
        (literalsOf (eventsOf (performAppend server options) w)).flatten = options.literal) ∧
      (LiteralReached server options w →
      LiteralFails server (w.writeCount + 1) options.literal.length →
        valueOf (performAppend server options) w ≠ some true)) ↔
    (LiteralReached server options w →
      LiteralFails server (w.writeCount + 1) options.literal.length →
      options.literal = [] ∧ server.reads (w.readCount + 1) = none) := by
  have run : AppendRun server options w _ _ := performAppend_run options w
  by_cases reached : LiteralReached server options w
  · obtain ⟨past, pieces, went, written, fails, writes, told⟩ := run.reached reached
    rw [went, written]
    by_cases failing : LiteralFails server (w.writeCount + 1) options.literal.length
    · obtain ⟨isPast, whole⟩ := fails failing
      have reports := told isPast
      -- where the loop fails, the command goes on behind it all the same
      constructor
      · rintro ⟨all, reported⟩ _ _
        refine ⟨whole.mp (all isPast), ?_⟩
        by_contra some_
        exact reported reached failing (reports.mpr some_)
      · intro only
        obtain ⟨empty, none_⟩ := only reached failing
        exact ⟨fun _ => whole.mpr empty, fun _ _ value => reports.mp value none_⟩
    · exact iff_of_true ⟨writes failing, fun _ fails => absurd fails failing⟩
        fun _ fails => absurd fails failing
  · exact iff_of_true ⟨fun past => absurd past (run.early reached), fun here => absurd here reached⟩
      fun here => absurd here reached

/-- A server that takes a line, and then nothing. -/
def brokenServer : Server where
  reads _ := some (ascii "+ go on")
  writes call length := if call = 0 then some (Fin.last length) else none
  reads_length call response same := by
    rw [← Option.some.inj same]
    decide

/-- Nothing of the message is written, and the command is done. -/
theorem append_passes_error :
    ¬ ((PastLiteral (eventsOf (performAppend brokenServer { literal := ascii "hello" })
      ⟨0, 0, [], []⟩) →
        (literalsOf (eventsOf (performAppend brokenServer { literal := ascii "hello" })
          ⟨0, 0, [], []⟩)).flatten =
          ascii "hello") ∧
      (LiteralReached brokenServer { literal := ascii "hello" } ⟨0, 0, [], []⟩ →
        LiteralFails brokenServer 1 (ascii "hello").length →
          valueOf (performAppend brokenServer { literal := ascii "hello" }) ⟨0, 0, [], []⟩ ≠
            some true)) := by
  rintro ⟨all, _⟩
  have past : PastLiteral (eventsOf (performAppend brokenServer { literal := ascii "hello" })
    ⟨0, 0, [], []⟩) :=
    ⟨[], by decide +kernel⟩
  exact absurd (all past) (by decide +kernel)

end Zn
