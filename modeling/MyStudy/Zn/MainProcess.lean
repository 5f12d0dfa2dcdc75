import MyStudy.Lib.Transition
import MyStudy.Zn.MigrationQueue

/-!
# The migration process

`main` from the queue row to the end, one SQL statement or one call to another host at a time. What
the other hosts answer is fixed beforehand; the table may change between two steps. The filters and
the IMAP phase are single steps here.
-/
namespace Zn

/-! ### The account -/

/-- What one LDAP search finds: an entry with its attributes, no entry, or an error. -/
inductive SearchResult where
  | entry (getValue : Bytes → Option Bytes)
  | noEntry
  | error

/-- What `get_zimbra_ldap_values` returns or throws. -/
inductive LdapResult where
  | values (ret : List Bytes)
  | noAccount
  | retryExceed
  | uncaught
deriving DecidableEq, Repr

/-- The attributes of an entry. A missing one throws what only a retry loop would catch. -/
def entryValues (attr : List Bytes) (getValue : Bytes → Option Bytes) : LdapResult :=
  match attr.mapM getValue with
  | none => .uncaught
  | some ret => .values ret

/-- `zn_retriable::process` around the search: `i` attempts have failed, `left` more may. -/
def retrySearch (attr : List Bytes) (search : Nat → SearchResult) (i : Nat) : Nat → LdapResult
  | 0 =>
    match search i with
    | .entry getValue => entryValues attr getValue
    | .noEntry => .noAccount
    | .error => .retryExceed
  | left + 1 =>
    match search i with
    | .entry getValue => entryValues attr getValue
    | .noEntry => .noAccount
    | .error => retrySearch attr search (i + 1) left

/-- `get_zimbra_ldap_values`. The connection is opened outside the retry loop. -/
def getZimbraLdapValues (init : Bool) (search : Nat → SearchResult) (attr : List Bytes) :
    LdapResult :=
  if init then retrySearch attr search 0 3 else .uncaught

/-- How the NSIM login ends: it succeeds or throws. -/
inductive NsimLogin where
  | ok
  | no
  | bad
  | retryExceed
  | uncaught
deriving DecidableEq, Repr

/-! ### The export -/

/-- How a call ends: it succeeds, throws what `main` catches, or throws something else. -/
inductive Outcome where
  | ok
  | caught
  | uncaught
deriving DecidableEq, Repr

/-- The `auto_ptr`s of `main`. -/
inductive Pointer where
  | folder
  | mailbox
deriving DecidableEq, Repr

structure Export where
  httpInit : Outcome
  changePassword : Outcome
  getInfo : Outcome
  getZimbraFolder : Outcome
  getDelegateToken : Outcome
  download : Outcome
  dump : Outcome
deriving DecidableEq, Repr

/-- The calls of the `try` block in their order, with the pointers they set. -/
def Export.calls (e : Export) : List (Outcome × List Pointer) :=
  [(e.httpInit, []), (e.changePassword, []), (e.getInfo, []), (e.getZimbraFolder, [.folder]),
    (e.getDelegateToken, []), (e.download, []), (e.dump, [.mailbox])]

/-- The `try` block: how it ends, and the pointers that are set then. -/
def tryCalls : List (Outcome × List Pointer) → List Pointer → Outcome × List Pointer
  | [], set => (.ok, set)
  | (.ok, pointers) :: calls, set => tryCalls calls (set ++ pointers)
  | (thrown, _) :: _, set => (thrown, set)

/-! ### The process -/

structure Outcomes where
  ldapInit : Bool
  ldapSearch : Nat → SearchResult
  nsimLogin : NsimLogin
  exports : Export
  filters : Outcome
  deliver : Outcome

def ldapAttributes : List Bytes :=
  [ascii "zimbraId", ascii "ezwebUserPassword", ascii "zimbraMailHost"]

def Outcomes.ldap (o : Outcomes) : LdapResult :=
  getZimbraLdapValues o.ldapInit o.ldapSearch ldapAttributes

/-- What `main` does next. -/
inductive Main where
  | select
  | ldap (row : MigrationRow)
  | nsim (row : MigrationRow)
  | updateZimbraId (row : MigrationRow) (ldapValues : List Bytes)
  | updateExporting (row : MigrationRow) (ldapValues : List Bytes)
  | exports (row : MigrationRow) (ldapValues : List Bytes)
  | updateAnalyzing (row : MigrationRow) (set : List Pointer)
  | filters (row : MigrationRow) (set : List Pointer)
  | updateMigrating (row : MigrationRow)
  | deliver (row : MigrationRow)
  | deleteData (row : MigrationRow)
  | returned (rc : Nat)
  | terminated
  | undefined
deriving DecidableEq, Repr

/-- What the statements about `main` look at. -/
inductive Action where
  | index (position size : Nat)
  | deref (pointer : Pointer) (set : Bool)
  | procStatus (status : Nat)
deriving DecidableEq, Repr

/-- The use of `ldap_values[0]`, which is undefined for an empty vector. -/
def useZimbraId (ldapValues : List Bytes) (next : Bytes → Queue × Main) (queue : Queue) :
    Queue × Main × List Action :=
  match ldapValues with
  | [] => (queue, .undefined, [.index 0 0])
  | zimbraId :: rest =>
    let (queue', main) := next zimbraId
    (queue', main, [.index 0 (rest.length + 1)])

/-- The first use of each pointer: the folder filters, then the mailbox filters. -/
def useFilters (o : Outcomes) (row : MigrationRow) (set : List Pointer) : Main × List Action :=
  if .folder ∉ set then (.undefined, [.deref .folder false])
  else if .mailbox ∉ set then (.undefined, [.deref .folder true, .deref .mailbox false])
  else
    (if o.filters = .ok then .updateMigrating row else .terminated,
      [.deref .folder true, .deref .mailbox true])

/-- One step of `main` for a login: the table, the point after it, and what it did. -/
def Main.step (o : Outcomes) (loginId : Bytes) (queue : Queue) :
    Main → Option (Queue × Main × List Action)
  | .select =>
    match queue.getMigrationInformation loginId with
    | none => some (queue, .returned 1, [])
    | some row =>
      if row.procStatus = notProcess then some (queue, .ldap row, [])
      else some (queue, .returned 1, [])
  | .ldap row =>
    match o.ldap with
    | .values ret => some (queue, .updateZimbraId row ret, [])
    | .noAccount => some (queue, .nsim row, [])
    | .retryExceed => some (queue, .returned 1, [])
    | .uncaught => some (queue, .terminated, [])
  | .nsim row =>
    match o.nsimLogin with
    -- nothing is put into `ldap_values` here
    | .ok => some (queue, .updateZimbraId row [], [])
    | .no => some (queue, .returned 1, [])
    | .bad => some (queue, .returned 1, [])
    | .retryExceed =>
      some (queue.updateProcStatus row.loginId migrationBreakout, .returned 1,
        [.procStatus migrationBreakout])
    | .uncaught => some (queue, .terminated, [])
  | .updateZimbraId row ldapValues =>
    some (useZimbraId ldapValues
      (fun zimbraId => (queue.updateZimbraId loginId zimbraId, .updateExporting row ldapValues))
      queue)
  | .updateExporting row ldapValues =>
    some (queue.updateProcStatus loginId exporting, .exports row ldapValues,
      [.procStatus exporting])
  | .exports row ldapValues =>
    some (useZimbraId ldapValues
      (fun _ =>
        -- the catch clauses log, and `main` goes on behind them
        match tryCalls o.exports.calls [] with
        | (.uncaught, _) => (queue, .terminated)
        | (_, set) => (queue, .updateAnalyzing row set)) queue)
  | .updateAnalyzing row set =>
    some (queue.updateProcStatus loginId analyzing, .filters row set, [.procStatus analyzing])
  | .filters row set =>
    some (queue, useFilters o row set)
  | .updateMigrating row =>
    some (queue.updateProcStatus loginId migrating, .deliver row, [.procStatus migrating])
  | .deliver row =>
    match o.deliver with
    | .ok => some (queue, .deleteData row, [])
    | _ => some (queue, .terminated, [])
  | .deleteData _ => some (queue.deleteData loginId, .returned 0, [])
  | .returned _ => none
  | .terminated => none
  | .undefined => none

/-! ### What the outcomes have to be -/

/-- How the first call of the `try` block that fails does so. -/
def Export.failure (e : Export) : Option Outcome := (e.calls.map Prod.fst).find? (· ≠ .ok)

/-- An account that LDAP does not know must not pass the NSIM login, and no exception of the export
may be caught. -/
def Outcomes.Fine (o : Outcomes) : Prop :=
  match o.ldap with
  | .values _ => o.exports.failure ≠ some .caught
  | .noAccount => o.nsimLogin ≠ .ok
  | _ => True

/-- No empty vector is indexed, no unset pointer dereferenced, and ANALYZING only set behind an
export that succeeded. -/
structure Safe (o : Outcomes) (actions : List Action) : Prop where
  index : ∀ position size, .index position size ∈ actions → position < size
  deref : ∀ pointer set, .deref pointer set ∈ actions → set = true
  procStatus : .procStatus analyzing ∈ actions → o.exports.failure = none

/-- `main` alone, with what it has done so far. -/
structure Alone where
  queue : Queue
  main : Main
  actions : List Action

def Alone.step (o : Outcomes) (loginId : Bytes) (s : Alone) (_ : Unit) : Option Alone :=
  (s.main.step o loginId s.queue).map fun (queue, main, actions) =>
    ⟨queue, main, s.actions ++ actions⟩

theorem tryCalls_spec (calls : List (Outcome × List Pointer)) (set : List Pointer) :
    match (calls.map Prod.fst).find? (· ≠ .ok) with
    | none => tryCalls calls set = (.ok, set ++ calls.flatMap Prod.snd)
    | some thrown => (tryCalls calls set).1 = thrown := by
  induction calls generalizing set with
  | nil => simp [tryCalls]
  | cons call calls ih =>
    obtain ⟨outcome, pointers⟩ := call
    cases outcome with
    | ok => simpa [tryCalls] using ih (set ++ pointers)
    | _ => simp [tryCalls]

/-- Past an export without an exception that is caught, all succeeded and both pointers are set. -/
theorem tryCalls_exports (e : Export) (set : List Pointer) (sound : e.failure ≠ some .caught)
    (ended : tryCalls e.calls [] = (.ok, set) ∨ tryCalls e.calls [] = (.caught, set)) :
    e.failure = none ∧ .folder ∈ set ∧ .mailbox ∈ set := by
  have spec := tryCalls_spec e.calls []
  rw [← Export.failure] at spec
  cases failed : e.failure with
  | none =>
    rw [failed] at spec
    simp only [spec, Prod.mk.injEq, reduceCtorEq, false_and, or_false, true_and] at ended
    subst ended
    exact ⟨rfl, by simp [Export.calls], by simp [Export.calls]⟩
  | some thrown =>
    rw [failed] at spec sound
    have notOk : thrown ≠ .ok := by simpa using List.find?_some failed
    rcases ended with ok | caught
    · rw [ok] at spec
      exact absurd spec.symm notOk
    · rw [caught] at spec
      exact absurd (congrArg some spec.symm) sound

/-! ### One step -/

section runs

variable (o : Outcomes) (loginId : Bytes)

/-- If there is a row to process, the outcomes are fine. -/
def Ready (queue : Queue) : Prop :=
  ∀ row, queue.getMigrationInformation loginId = some row → row.procStatus = notProcess → o.Fine

/-- What holds at each point of a run with fine outcomes. -/
def Main.Sound (queue : Queue) : Main → Prop
  | .select => Ready o loginId queue
  | .ldap _ => o.Fine
  | .nsim _ => o.Fine ∧ o.ldap = .noAccount
  | .updateZimbraId _ ldapValues | .updateExporting _ ldapValues | .exports _ ldapValues =>
    ldapValues ≠ [] ∧ o.exports.failure ≠ some .caught
  | .updateAnalyzing _ set | .filters _ set =>
    o.exports.failure = none ∧ .folder ∈ set ∧ .mailbox ∈ set
  | _ => True

theorem safe_append (before after : List Action) :
    Safe o (before ++ after) ↔ Safe o before ∧ Safe o after := by
  constructor
  · rintro ⟨index, deref, procStatus⟩
    exact ⟨⟨fun p n among => index p n (by simp [among]),
      fun p n among => deref p n (by simp [among]),
        fun among => procStatus (by simp [among])⟩,
      ⟨fun p n among => index p n (by simp [among]), fun p n among => deref p n (by simp [among]),
        fun among => procStatus (by simp [among])⟩⟩
  · rintro ⟨first, second⟩
    exact ⟨fun p n among => (List.mem_append.mp among).elim (first.index p n) (second.index p n),
      fun p n among => (List.mem_append.mp among).elim (first.deref p n) (second.deref p n),
      fun among => (List.mem_append.mp among).elim first.procStatus second.procStatus⟩

theorem safe_nil : Safe o [] := ⟨nofun, nofun, nofun⟩

/-- Every attribute asked for gives a value. -/
theorem entryValues_ne_nil (attr : List Bytes) (getValue : Bytes → Option Bytes) (ret : List Bytes)
    (asked : attr ≠ []) (found : entryValues attr getValue = .values ret) : ret ≠ [] := by
  rw [entryValues] at found
  split at found
  · cases found
  next values mapped =>
    obtain rfl := LdapResult.values.inj found
    rintro rfl
    cases attr with
    | nil => exact asked rfl
    | cons name names => simp [List.mapM_cons, Option.bind_eq_some_iff] at mapped

theorem retrySearch_ne_nil (attr : List Bytes) (search : Nat → SearchResult) (i left : Nat)
    (ret : List Bytes) (asked : attr ≠ []) (found : retrySearch attr search i left = .values ret) :
    ret ≠ [] := by
  induction left generalizing i with
  | zero =>
    rw [retrySearch] at found
    cases result : search i with
    | entry getValue =>
      rw [result] at found
      exact entryValues_ne_nil attr getValue ret asked found
    | noEntry => simp [result] at found
    | error => simp [result] at found
  | succ left ih =>
    rw [retrySearch] at found
    cases result : search i with
    | entry getValue =>
      rw [result] at found
      exact entryValues_ne_nil attr getValue ret asked found
    | noEntry => simp [result] at found
    | error =>
      rw [result] at found
      exact ih (i + 1) found

theorem Outcomes.ldap_ne_nil (ret : List Bytes) (found : o.ldap = .values ret) : ret ≠ [] := by
  rw [Outcomes.ldap, getZimbraLdapValues] at found
  split at found
  · exact retrySearch_ne_nil _ _ _ _ ret (by simp [ldapAttributes]) found
  · cases found

theorem useZimbraId_of_ne_nil (ldapValues : List Bytes) (next : Bytes → Queue × Main)
    (queue : Queue) (some_ : ldapValues ≠ []) :
    ∃ zimbraId, useZimbraId ldapValues next queue =
      ((next zimbraId).1, (next zimbraId).2, [.index 0 ldapValues.length]) := by
  obtain ⟨zimbraId, rest, rfl⟩ := List.exists_cons_of_ne_nil some_
  exact ⟨zimbraId, rfl⟩

theorem safe_index (size : Nat) (some_ : 0 < size) : Safe o [.index 0 size] :=
  ⟨by simpa using some_, by simp, by simp⟩

/-- Behind an account that LDAP does not know the NSIM login fails, and nothing follows it. -/
theorem Main.nsim_sound (queue queue' : Queue) (row : MigrationRow) (main' : Main)
    (actions : List Action) (fine : o.Fine) (unknown : o.ldap = .noAccount)
    (stepped : (Main.nsim row).step o loginId queue = some (queue', main', actions)) :
    main'.Sound o loginId queue' ∧ Safe o actions := by
  have quiet := safe_nil o
  rw [Outcomes.Fine, unknown] at fine
  simp only [Main.step] at stepped
  split at stepped
  next logged => exact absurd logged fine
  · cases stepped
    exact ⟨trivial, quiet⟩
  · cases stepped
    exact ⟨trivial, quiet⟩
  · cases stepped
    exact ⟨trivial, by simp, by simp, by simp⟩
  · cases stepped
    exact ⟨trivial, quiet⟩

/-- The export goes on to ANALYZING with both pointers set, or `main` ends. -/
theorem Main.exports_sound (queue queue' : Queue) (row : MigrationRow) (ldapValues : List Bytes)
    (main' : Main) (actions : List Action) (values : ldapValues ≠ [])
    (uncaught : o.exports.failure ≠ some .caught)
    (stepped : (Main.exports row ldapValues).step o loginId queue = some (queue', main', actions)) :
    main'.Sound o loginId queue' ∧ Safe o actions := by
  obtain ⟨zimbraId, used⟩ := useZimbraId_of_ne_nil ldapValues
    (fun _ => match tryCalls o.exports.calls [] with
      | (.uncaught, _) => (queue, .terminated)
      | (_, set) => (queue, .updateAnalyzing row set)) queue values
  simp only [Main.step, used] at stepped
  cases stepped
  refine ⟨?_, safe_index o _ (List.length_pos_iff.mpr values)⟩
  rcases ended : tryCalls o.exports.calls [] with ⟨outcome, set⟩
  cases outcome with
  | ok => exact tryCalls_exports o.exports set uncaught (.inl ended)
  | caught => exact tryCalls_exports o.exports set uncaught (.inr ended)
  | uncaught => trivial

/-- A step from a sound point is safe and leads to a sound point. -/
theorem Main.step_sound (queue queue' : Queue) (main main' : Main) (actions : List Action)
    (sound : main.Sound o loginId queue)
    (stepped : main.step o loginId queue = some (queue', main', actions)) :
    main'.Sound o loginId queue' ∧ Safe o actions := by
  have quiet := safe_nil o
  cases main with
  | select =>
    simp only [Main.step] at stepped
    split at stepped
    · cases stepped
      exact ⟨trivial, quiet⟩
    next row found =>
      split at stepped
      -- the row is worked on only while no process has begun with it
      next fresh =>
        cases stepped
        exact ⟨sound row found fresh, quiet⟩
      · cases stepped
        exact ⟨trivial, quiet⟩
  | ldap row =>
    have fine : o.Fine := sound
    simp only [Main.step] at stepped
    split at stepped
    next ret found =>
      cases stepped
      rw [Outcomes.Fine, found] at fine
      exact ⟨⟨o.ldap_ne_nil ret found, fine⟩, quiet⟩
    next found =>
      cases stepped
      exact ⟨⟨fine, found⟩, quiet⟩
    · cases stepped
      exact ⟨trivial, quiet⟩
    · cases stepped
      exact ⟨trivial, quiet⟩
  | nsim row =>
    exact Main.nsim_sound o loginId queue queue' row main' actions sound.1 sound.2 stepped
  | updateZimbraId row ldapValues =>
    -- the values are not empty, so the first of them is there
    obtain ⟨zimbraId, used⟩ := useZimbraId_of_ne_nil ldapValues
      (fun zimbraId => (queue.updateZimbraId loginId zimbraId, .updateExporting row ldapValues))
      queue
      sound.1
    simp only [Main.step, used] at stepped
    cases stepped
    exact ⟨sound, safe_index o _ (List.length_pos_iff.mpr sound.1)⟩
  | updateExporting row ldapValues =>
    cases stepped
    exact ⟨sound, by simp, by simp, by simp⟩
  | exports row ldapValues =>
    exact Main.exports_sound o loginId queue queue' row ldapValues main' actions sound.1
      sound.2 stepped
  | updateAnalyzing row set =>
    cases stepped
    exact ⟨sound, by simp, by simp, fun _ => sound.1⟩
  | filters row set =>
    obtain ⟨_, folder, mailbox⟩ := sound
    simp only [Main.step, useFilters, folder, mailbox, not_true_eq_false, if_false] at stepped
    cases stepped
    refine ⟨?_, by simp, by simp, by simp⟩
    -- whether the filters are set or not, the next point needs nothing of the pointers
    split <;> trivial
  | updateMigrating row =>
    cases stepped
    exact ⟨trivial, by simp, by simp, by simp⟩
  | deliver row =>
    simp only [Main.step] at stepped
    split at stepped
    · cases stepped
      exact ⟨trivial, quiet⟩
    · cases stepped
      exact ⟨trivial, quiet⟩
  | deleteData row =>
    cases stepped
    exact ⟨trivial, quiet⟩
  | returned rc => cases stepped
  | terminated => cases stepped
  | undefined => cases stepped

theorem Alone.step_of (s : Alone) (queue : Queue) (main : Main) (actions : List Action)
    (stepped : s.main.step o loginId s.queue = some (queue, main, actions)) :
    s.step o loginId () = some ⟨queue, main, s.actions ++ actions⟩ := by
  rw [Alone.step, stepped]
  rfl

/-- `main` has to be safe through any number of steps. -/
def RunsSafely (queue : Queue) : Prop :=
  ∀ steps, Transition.Throughout (Alone.step o loginId) (fun s => Safe o s.actions)
    ⟨queue, .select, []⟩ (List.replicate steps ())

theorem runsSafely_of_ready (queue : Queue) (ready : Ready o loginId queue) :
    RunsSafely o loginId queue := by
  intro steps
  apply Transition.throughout_of_steps
    (I := fun s => s.main.Sound o loginId s.queue ∧ Safe o s.actions)
  · rintro s _ t ⟨sound, safe⟩ stepped
    rw [Alone.step] at stepped
    obtain ⟨⟨queue', main', actions⟩, moved, rfl⟩ := Option.map_eq_some_iff.mp stepped
    have after := s.main.step_sound o loginId s.queue queue' main' actions sound moved
    exact ⟨after.1, (safe_append o s.actions actions).mpr ⟨safe, after.2⟩⟩
  · exact fun s both => both.2
  · exact ⟨ready, safe_nil o⟩

/-- Without fine outcomes a run that processes a row comes to an unsafe action. -/
theorem fine_of_runsSafely (queue : Queue) (row : MigrationRow)
    (found : queue.getMigrationInformation loginId = some row) (fresh : row.procStatus = notProcess)
    (safely : RunsSafely o loginId queue) : o.Fine := by
  have selected : Main.step o loginId queue .select = some (queue, .ldap row, []) := by
    simp only [Main.step, found, fresh, if_true]
  rw [Outcomes.Fine]
  split
  next ret known =>
    -- up to the `try` block, whose exception is caught, and on to the status
    intro failed
    obtain ⟨zimbraId, rest, rfl⟩ := List.exists_cons_of_ne_nil (o.ldap_ne_nil ret known)
    have caught : (tryCalls o.exports.calls []).1 = .caught := by
      have spec := tryCalls_spec o.exports.calls []
      rw [← Export.failure, failed] at spec
      exact spec
    have first := (safely 6).next (Alone.step_of o loginId _ _ _ _ selected)
    have second := first.next (Alone.step_of o loginId _ queue
      (.updateZimbraId row (zimbraId :: rest)) [] (by simp only [Main.step, known]))
    have third := second.next (Alone.step_of o loginId _ _ _ _ rfl)
    have fourth := third.next (Alone.step_of o loginId _ _ _ _ rfl)
    have fifth := fourth.next (Alone.step_of o loginId _ _
      (.updateAnalyzing row (tryCalls o.exports.calls []).2) _ (by
        simp only [Main.step, useZimbraId]
        rcases ended : tryCalls o.exports.calls [] with ⟨outcome, set⟩
        rw [ended] at caught
        cases caught
        rfl))
    have last := fifth.next (Alone.step_of o loginId _ _ _ _ rfl)
    have succeeded := last.here.procStatus (by simp)
    rw [failed] at succeeded
    cases succeeded
  next unknown =>
    intro logged
    have first := (safely 4).next (Alone.step_of o loginId _ _ _ _ selected)
    have second := first.next (Alone.step_of o loginId _ queue (.nsim row) []
      (by simp only [Main.step, unknown]))
    have third := second.next (Alone.step_of o loginId _ queue (.updateZimbraId row []) []
      (by simp only [Main.step, logged]))
    have last := third.next (Alone.step_of o loginId _ queue .undefined [.index 0 0] rfl)
    have nothing := last.here.index 0 0 (by simp)
    omega
  · trivial

/-- `main` runs safely just when, with a row to process, an unknown account does not pass the NSIM
login and no exception of the export is caught. -/
theorem runsSafely_iff (queue : Queue) : RunsSafely o loginId queue ↔ Ready o loginId queue := by
  constructor
  · exact fun safely row found fresh => fine_of_runsSafely o loginId queue row found fresh safely
  · exact runsSafely_of_ready o loginId queue

end runs

/-- An account that LDAP does not know logs in at its node: `ldap_values` is still empty when its
first element is used. -/
theorem empty_values_indexed :
    ¬ ∀ (o : Outcomes) (loginId : Bytes) (queue : Queue), RunsSafely o loginId queue := by
  intro claim
  let o : Outcomes :=
    ⟨true, fun _ => .noEntry, .ok, ⟨.ok, .ok, .ok, .ok, .ok, .ok, .ok⟩, .ok, .ok⟩
  have fine := fine_of_runsSafely o (ascii "user1")
    [⟨0, ascii "user1", [], 1, ascii "mbs1", notProcess⟩]
    ⟨0, ascii "user1", [], 1, ascii "mbs1", notProcess⟩ rfl rfl (claim o _ _)
  exact fine rfl

end Zn
