import Mathlib.Data.List.Basic
import MyStudy.Lib.Transition
import MyStudy.Zn.CheckRequest

/-!
# The reception server

The parent process of the reception server. It forks a process for each connection and counts those
it has not waited for; SIGINT closes the listener, and the event loop ends when the last process is
waited for.

## Main result

`znServer_run`: over every order of connections, exits and signals the count is right, and the loop
is asked to exit only when nothing is left to wait for.
-/
namespace Zn

namespace Server

abbrev Pid := Nat

/-- The callbacks that call `event_base_loopexit`. -/
inductive Callback where
  | stop
  | sigchldHandler
  | errorCb
  deriving DecidableEq, Repr

/-- What the parent process does, as far as it matters here. -/
inductive Action where
  | refused
  | forkError
  | forked (pid : Pid)
  | reaped (pid : Pid)
  | sigint
  /-- The loop is asked to exit, while there are these connection processes to wait for. -/
  | loopexit (callback : Callback) (unreaped : List Pid)
  deriving DecidableEq, Repr

/-- A connection is taken from the listener. -/
def Action.Accepts : Action → Prop
  | .refused | .forkError | .forked _ => True
  | _ => False

/-- What the parent process meets: calls of its callbacks, the results of `fork` and `waitpid` in
them, and exits of connection processes at any time. -/
inductive Event where
  | accept (fork : Option Pid)
  | childExit (pid : Pid)
  | sigchld
  | waitpid (result : Option Pid)
  | sigint
  | listenerError
  deriving DecidableEq, Repr

/-- The members of `zn_server` that change, the connection processes, and what was done so far.
`reaping` stands while `sigchld_handler` is in its loop. -/
structure State where
  connCount : Nat
  endFlag : Bool
  listener : Bool
  reaping : Bool
  running : List Pid
  exited : List Pid
  log : List Action
  deriving DecidableEq, Repr

def State.initial : State := ⟨0, false, true, false, [], [], []⟩

/-- The connection processes that were forked and not waited for. -/
def State.unreaped (s : State) : List Pid := s.running ++ s.exited

def onAccept (maxConnCount : Nat) (s : State) (fork : Option Pid) : State :=
  if s.connCount ≥ maxConnCount then { s with log := s.log ++ [.refused] }
  else
    match fork with
    | none => { s with log := s.log ++ [.forkError] }
    | some pid =>
      { s with
        connCount := (s.connCount + 1) % 2 ^ 32
        running := s.running ++ [pid]
        log := s.log ++ [.forked pid] }

def loopexit (s : State) (callback : Callback) : State :=
  { s with log := s.log ++ [.loopexit callback s.unreaped] }

/-- A round of the loop in `sigchld_handler`: `waitpid` has found a process. -/
def reap (s : State) (pid : Pid) : State :=
  { s with
    connCount := (s.connCount + (2 ^ 32 - 1)) % 2 ^ 32
    exited := s.exited.erase pid
    log := s.log ++ [.reaped pid] }

/-- `sigchld_handler` behind its loop. -/
def afterReaping (s : State) : State :=
  let s := { s with reaping := false }
  if s.endFlag && s.connCount = 0 then loopexit s .sigchldHandler else s

def stop (s : State) : State :=
  -- closed already after the first SIGINT
  let s := { s with listener := false, log := s.log ++ [.sigint] }
  let s := if s.connCount = 0 then loopexit s .stop else s
  { s with endFlag := true }

/-- One event. Callbacks do not overlap, the kernel gives out no process id that is in use, and
`waitpid` finds a process as long as one has exited. -/
def step (maxConnCount : Nat) (s : State) : Event → Option State
  | .accept fork =>
    if s.reaping || !s.listener || fork.any (· ∈ s.unreaped) then none
    else some (onAccept maxConnCount s fork)
  | .childExit pid =>
    if pid ∈ s.running then
      some { s with running := s.running.erase pid, exited := s.exited ++ [pid] }
    else none
  | .sigchld => if s.reaping then none else some { s with reaping := true }
  | .waitpid (some pid) => if s.reaping && pid ∈ s.exited then some (reap s pid) else none
  | .waitpid none => if s.reaping && s.exited = [] then some (afterReaping s) else none
  | .sigint => if s.reaping then none else some (stop s)
  | .listenerError => if s.reaping || !s.listener then none else some (loopexit s .errorCb)

/-! ### The invariant -/

/-- The requests to exit: after a SIGINT, and with nothing to wait for. The error callback of the
listener is another matter. -/
def ExitsWell (log : List Action) : Prop :=
  ∀ before callback unreaped after, log = before ++ .loopexit callback unreaped :: after →
    callback ≠ .errorCb → .sigint ∈ before ∧ unreaped = []

/-- No connection is taken behind a SIGINT. -/
def ClosedAfterSigint (log : List Action) : Prop :=
  ∀ before after, log = before ++ .sigint :: after → ∀ action ∈ after, ¬ action.Accepts

structure Invariant (maxConnCount : Nat) (s : State) : Prop where
  count : s.connCount = s.unreaped.length
  most : s.connCount ≤ maxConnCount
  flag : s.endFlag = true → .sigint ∈ s.log
  listening : s.listener = true → .sigint ∉ s.log
  exits : ExitsWell s.log
  closed : ClosedAfterSigint s.log

/-- A log with one more action is cut at an earlier one, or at that. -/
theorem cut_snoc {log before after : List Action} {last action : Action}
    (cut : log ++ [last] = before ++ action :: after) :
    (log = before ∧ last = action ∧ after = []) ∨
      ∃ rest, log = before ++ action :: rest ∧ after = rest ++ [last] := by
  rcases List.eq_nil_or_concat' after with rfl | ⟨rest, b, rfl⟩
  · obtain ⟨front, same⟩ := List.append_inj' cut rfl
    exact .inl ⟨front, List.singleton_inj.mp same, rfl⟩
  · rw [← List.cons_append, ← List.append_assoc] at cut
    obtain ⟨front, same⟩ := List.append_inj' cut rfl
    exact .inr ⟨rest, front, by rw [List.singleton_inj.mp same]⟩

theorem ExitsWell.snoc {log : List Action} {action : Action} (well : ExitsWell log)
    (new : ∀ callback unreaped, action = .loopexit callback unreaped → callback ≠ .errorCb →
      .sigint ∈ log ∧ unreaped = []) : ExitsWell (log ++ [action]) := by
  intro before callback unreaped after cut proper
  rcases cut_snoc cut with ⟨rfl, same, _⟩ | ⟨rest, earlier, _⟩
  · exact new callback unreaped same proper
  · exact well before callback unreaped rest earlier proper

theorem ClosedAfterSigint.snoc {log : List Action} {action : Action}
    (closed : ClosedAfterSigint log) (new : action.Accepts → .sigint ∉ log) :
    ClosedAfterSigint (log ++ [action]) := by
  intro before after cut later member
  rcases cut_snoc cut with ⟨_, _, rfl⟩ | ⟨rest, earlier, rfl⟩
  · simp at member
  · rcases List.mem_append.mp member with old | last
    · exact closed before rest earlier later old
    · rw [List.mem_singleton.mp last]
      exact fun accepts => new accepts (by rw [earlier]; simp)

theorem invariant_initial (maxConnCount : Nat) : Invariant maxConnCount .initial where
  count := rfl
  most := Nat.zero_le _
  flag := by simp [State.initial]
  listening := by simp [State.initial]
  exits := by intro before callback unreaped after cut; simp [State.initial] at cut
  closed := by intro before after cut; simp [State.initial] at cut

section Steps

variable {maxConnCount : Nat} {s : State}

theorem onAccept_invariant (small : maxConnCount < 2 ^ 32) (fork : Option Pid)
    (listening : s.listener = true) (inv : Invariant maxConnCount s) :
    Invariant maxConnCount (onAccept maxConnCount s fork) := by
  have fresh : .sigint ∉ s.log := inv.listening listening
  have noExit (action : Action) (accepts : action.Accepts) : ExitsWell (s.log ++ [action]) := by
    apply inv.exits.snoc
    rintro callback unreaped rfl
    simp [Action.Accepts] at accepts
  have before (action : Action) : ClosedAfterSigint (s.log ++ [action]) :=
    inv.closed.snoc fun _ => fresh
  have still (action : Action) (accepts : action.Accepts) : .sigint ∉ s.log ++ [action] := by
    rw [List.mem_append, List.mem_singleton, not_or]
    refine ⟨fresh, ?_⟩
    rintro rfl
    simp [Action.Accepts] at accepts
  have flagged (action : Action) : s.endFlag = true → .sigint ∈ s.log ++ [action] := by
    intro flag
    exact List.mem_append_left _ (inv.flag flag)
  unfold onAccept
  split
  · exact ⟨inv.count, inv.most, flagged _, fun _ => still _ trivial, noExit _ trivial, before _⟩
  next room =>
    cases fork with
    | none =>
      exact ⟨inv.count, inv.most, flagged _, fun _ => still _ trivial, noExit _ trivial, before _⟩
    | some pid =>
      -- below the limit, the count has room for one more
      have count := inv.count
      have next : (s.connCount + 1) % 2 ^ 32 = s.connCount + 1 := Nat.mod_eq_of_lt (by omega)
      rw [next]
      refine ⟨?_, by simp only; omega, flagged _, fun _ => still _ trivial, noExit _ trivial,
        before _⟩
      simp only [State.unreaped, List.length_append, List.length_singleton] at count ⊢
      omega

theorem childExit_invariant (pid : Pid) (member : pid ∈ s.running)
    (inv : Invariant maxConnCount s) :
    Invariant maxConnCount
      { s with running := s.running.erase pid, exited := s.exited ++ [pid] } := by
  refine ⟨?_, inv.most, inv.flag, inv.listening, inv.exits, inv.closed⟩
  have count := inv.count
  have some_ := List.length_pos_of_mem member
  simp only [State.unreaped, List.length_append, List.length_erase_of_mem member,
    List.length_singleton] at count ⊢
  omega

/-- A process to wait for has been counted. -/
theorem connCount_pos {pid : Pid} (member : pid ∈ s.exited) (inv : Invariant maxConnCount s) :
    0 < s.connCount := by
  have some_ := List.length_pos_of_mem member
  rw [inv.count, State.unreaped, List.length_append]
  omega

theorem reap_invariant (small : maxConnCount < 2 ^ 32) (pid : Pid) (member : pid ∈ s.exited)
    (inv : Invariant maxConnCount s) : Invariant maxConnCount (reap s pid) := by
  have count := inv.count
  have most := inv.most
  have some_ := List.length_pos_of_mem member
  have pos := connCount_pos member inv
  have next : (s.connCount + (2 ^ 32 - 1)) % 2 ^ 32 = s.connCount - 1 := by omega
  have sigint : .sigint ∈ s.log ++ [.reaped pid] ↔ .sigint ∈ s.log := by simp
  rw [reap, next]
  refine ⟨?_, by simp only; omega, fun flag => sigint.mpr (inv.flag flag),
    fun listening => mt sigint.mp (inv.listening listening), inv.exits.snoc (by simp),
    inv.closed.snoc (by simp [Action.Accepts])⟩
  simp only [State.unreaped, List.length_append, List.length_erase_of_mem member] at count ⊢
  omega

theorem loopexit_invariant (callback : Callback) (inv : Invariant maxConnCount s)
    (proper : callback ≠ .errorCb → .sigint ∈ s.log ∧ s.connCount = 0) :
    Invariant maxConnCount (loopexit s callback) := by
  have sigint : .sigint ∈ s.log ++ [.loopexit callback s.unreaped] ↔ .sigint ∈ s.log := by simp
  refine ⟨inv.count, inv.most, fun flag => sigint.mpr (inv.flag flag),
    fun listening => mt sigint.mp (inv.listening listening), inv.exits.snoc ?_,
    inv.closed.snoc (by simp [Action.Accepts])⟩
  rintro asked unreaped same other
  obtain ⟨rfl, rfl⟩ := Action.loopexit.inj same
  obtain ⟨signalled, none_⟩ := proper other
  refine ⟨signalled, List.length_eq_zero_iff.mp ?_⟩
  rw [← inv.count, none_]

theorem reaping_invariant (reaping : Bool) (inv : Invariant maxConnCount s) :
    Invariant maxConnCount { s with reaping := reaping } :=
  ⟨inv.count, inv.most, inv.flag, inv.listening, inv.exits, inv.closed⟩

theorem afterReaping_invariant (inv : Invariant maxConnCount s) :
    Invariant maxConnCount (afterReaping s) := by
  have idle := reaping_invariant false inv
  simp only [afterReaping]
  split
  next last =>
    rw [Bool.and_eq_true, decide_eq_true_eq] at last
    exact loopexit_invariant .sigchldHandler idle fun _ => ⟨idle.flag last.1, last.2⟩
  · exact idle

theorem stop_invariant (inv : Invariant maxConnCount s) : Invariant maxConnCount (stop s) := by
  have closing : Invariant maxConnCount { s with listener := false, log := s.log ++ [.sigint] } :=
    ⟨inv.count, inv.most, fun _ => by simp, by simp, inv.exits.snoc (by simp),
      inv.closed.snoc (by simp [Action.Accepts])⟩
  have ending (t : State) (signalled : .sigint ∈ t.log) (good : Invariant maxConnCount t) :
      Invariant maxConnCount { t with endFlag := true } :=
    ⟨good.count, good.most, fun _ => signalled, good.listening, good.exits, good.closed⟩
  simp only [stop]
  split
  next none_ =>
    apply ending
    · simp [loopexit]
    · exact loopexit_invariant .stop closing fun _ => ⟨by simp, none_⟩
  · exact ending _ (by simp) closing

theorem step_invariant (small : maxConnCount < 2 ^ 32) (event : Event) (t : State)
    (inv : Invariant maxConnCount s) (stepped : step maxConnCount s event = some t) :
    Invariant maxConnCount t := by
  cases event with
  | accept fork =>
    obtain ⟨allowed, ⟨⟩⟩ := Option.ite_none_left_eq_some.mp stepped
    have listening : s.listener = true := by simp at allowed; exact allowed.1.2
    exact onAccept_invariant small fork listening inv
  | childExit pid =>
    obtain ⟨member, ⟨⟩⟩ := Option.ite_none_right_eq_some.mp stepped
    exact childExit_invariant pid member inv
  | sigchld =>
    obtain ⟨_, ⟨⟩⟩ := Option.ite_none_left_eq_some.mp stepped
    exact reaping_invariant true inv
  | waitpid result =>
    cases result with
    | none =>
      obtain ⟨_, ⟨⟩⟩ := Option.ite_none_right_eq_some.mp stepped
      exact afterReaping_invariant inv
    | some pid =>
      obtain ⟨allowed, same⟩ := Option.ite_none_right_eq_some.mp stepped
      rw [Bool.and_eq_true, decide_eq_true_eq] at allowed
      rw [← Option.some.inj same]
      exact reap_invariant small pid allowed.2 inv
  | sigint =>
    obtain ⟨_, ⟨⟩⟩ := Option.ite_none_left_eq_some.mp stepped
    exact stop_invariant inv
  | listenerError =>
    obtain ⟨_, ⟨⟩⟩ := Option.ite_none_left_eq_some.mp stepped
    exact loopexit_invariant .errorCb inv (absurd rfl)

/-- A process is only counted off while there is one. -/
theorem step_reaps (event : Event) (t : State) (inv : Invariant maxConnCount s)
    (stepped : step maxConnCount s event = some t) :
    ∀ pid, event = .waitpid (some pid) → 0 < s.connCount := by
  rintro pid rfl
  obtain ⟨allowed, _⟩ := Option.ite_none_right_eq_some.mp stepped
  rw [Bool.and_eq_true, decide_eq_true_eq] at allowed
  exact connCount_pos allowed.2 inv

end Steps

/-- In a run of the parent process, where `setting` is what `get_long` gives for
TOOLSERV_LITSEN_COUNT: every state has the right count and only proper requests to exit, and no step
counts below zero. -/
theorem znServer_run (setting : Int) (events : List Event) :
    Transition.Throughout (step (unsignedInt setting))
      (fun s => s.connCount = s.unreaped.length ∧ s.connCount ≤ unsignedInt setting ∧
        (0 ≤ setting → (s.connCount : Int) ≤ setting) ∧ ExitsWell s.log ∧ ClosedAfterSigint s.log)
      .initial events ∧
    Transition.EachStep (step (unsignedInt setting))
      (fun s event => ∀ pid, event = .waitpid (some pid) → 0 < s.connCount) .initial events := by
  have small : unsignedInt setting < 2 ^ 32 := by
    rw [unsignedInt]
    omega
  have keeps (s : State) (event : Event) (t : State) (inv : Invariant (unsignedInt setting) s)
      (stepped : step (unsignedInt setting) s event = some t) : Invariant (unsignedInt setting) t :=
    step_invariant small event t inv stepped
  constructor
  · refine Transition.throughout_of_steps keeps ?_ State.initial events (invariant_initial _)
    intro s inv
    refine ⟨inv.count, inv.most, fun nonnegative => ?_, inv.exits, inv.closed⟩
    -- the conversion makes no larger number of one that is not negative
    have most := inv.most
    rw [unsignedInt] at most
    omega
  · exact Transition.eachStep_of_steps keeps (fun s event t => step_reaps event t)
      State.initial events
      (invariant_initial _)

end Server

end Zn
