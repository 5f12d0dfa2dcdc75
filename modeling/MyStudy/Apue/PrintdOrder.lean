import MyStudy.Apue.Printd
import MyStudy.Lib.Transition

/-!
# The order of the jobs

What the threads do to the list of pending jobs, whatever the files hold and whatever fails. The
printer thread takes the first job, and one that is deferred goes back to where it was taken from.
-/
namespace Apue.Printd

open Transition

variable {Tid : Type} {s s' : State Tid}

/-- The job that the printer thread has, and those behind it. -/
def State.pending (s : State Tid) : List Job := s.printer.job.toList ++ s.queue

/-- What a thread calls for the list in a step: `add_job`, `remove_job`, `replace_job` or `free`.
The memory is gone when the daemon ends. -/
inductive ListCall where
  | add (job : Job)
  | take
  | replace
  | free
  | forget

def mainCall : Main → Answer → Option ListCall
  | .addJob job _, .ok => some (.add job)
  | _, _ => none

def clientCall : Client → Answer → Option ListCall
  | .addJob req jobid _, .ok => some (.add ⟨jobid, req⟩)
  | _, _ => none

def printerCall (fs : Directory Name) : Printer → Answer → Option ListCall
  | .waiting, .ok => some .take
  | .openData _, .fails => some .free
  | .openData job, .ok => if (fs.find (dataName job.jobid)).isSome then none else some .free
  | .fstat _ _, .fails => some .free
  | .unlinkReqs _, .ok => some .free
  | .replace _, .ok => some .replace
  | _, _ => none

def listCall (s : State Tid) : Label Tid → Option ListCall
  | .start _ _ => some .forget
  | .main answer => mainCall s.main answer
  | .client t answer => clientCall (s.clients t) answer
  | .printer answer => printerCall s.fs s.printer answer
  | .crash => some .forget
  | _ => none

/-- What a call does to the jobs. -/
inductive Moves (s s' : State Tid) : Option ListCall → Prop
  | stays (added : s'.past.added = s.past.added) (done : s'.past.done = s.past.done)
      (job : s'.printer.job = s.printer.job) (queue : s'.queue = s.queue) : Moves s s' none
  | adds (job : Job) (added : s'.past.added = s.past.added ++ [job])
      (done : s'.past.done = s.past.done)
      (same : s'.printer.job = s.printer.job) (queue : s'.queue = s.queue ++ [job]) :
      Moves s s' (some (.add job))
  | takes (job : Job) (added : s'.past.added = s.past.added) (done : s'.past.done = s.past.done)
      (before : s.printer.job = none) (behind : s'.printer.job = some job)
      (queue : s.queue = job :: s'.queue) :
      Moves s s' (some .take)
  | defers (job : Job) (added : s'.past.added = s.past.added) (done : s'.past.done = s.past.done)
      (before : s.printer.job = some job) (behind : s'.printer.job = none)
      (queue : s'.queue = job :: s.queue) :
      Moves s s' (some .replace)
  | finishes (job : Job) (added : s'.past.added = s.past.added)
      (done : s'.past.done = s.past.done ++ [job])
      (before : s.printer.job = some job) (behind : s'.printer.job = none)
      (queue : s'.queue = s.queue) :
      Moves s s' (some .free)

/-- The jobs that are put on the list stand behind the others. -/
theorem Moves.pending {call : Option ListCall} (moves : Moves s s' call) :
    ∃ jobs, s'.past.added = s.past.added ++ jobs ∧
      s'.past.done ++ s'.pending = s.past.done ++ s.pending ++ jobs := by
  cases moves with
  | stays added done job queue =>
    exact ⟨[], by simp [added], by simp [State.pending, done, job, queue]⟩
  | adds job added done same queue =>
    exact ⟨[job], added, by simp [State.pending, done, same, queue]⟩
  | takes job added done before behind queue =>
    exact ⟨[], by simp [added], by simp [State.pending, done, before, behind, queue]⟩
  | defers job added done before behind queue =>
    exact ⟨[], by simp [added], by simp [State.pending, done, before, behind, queue]⟩
  | finishes job added done before behind queue =>
    exact ⟨[], by simp [added], by simp [State.pending, done, before, behind, queue]⟩

/-! ### Steps -/

theorem goMain_moves {p : Main} {answer : Answer} (steps : s.goMain p answer = some s') :
    Moves s s' (mainCall p answer) ∧ s'.main ≠ .down := by
  cases p with
  | addJob job entries =>
    cases answer with
    | ok =>
      obtain rfl := Option.some.inj steps
      exact ⟨.adds job rfl rfl rfl rfl, by simp⟩
    | _ => cases steps
  | build entries =>
    cases entries with
    | nil =>
      cases answer with
      | ok =>
        obtain rfl := Option.some.inj steps
        exact ⟨.stays rfl rfl rfl rfl, by simp⟩
      | _ => cases steps
    | cons dName entries =>
      cases answer with
      | ok =>
        simp only [State.goMain] at steps
        -- whatever the entry is, the list waits
        split at steps
        next =>
          obtain rfl := Option.some.inj steps
          exact ⟨.stays rfl rfl rfl rfl, by simp⟩
        next =>
          split at steps
          all_goals
            obtain rfl := Option.some.inj steps
            exact ⟨.stays rfl rfl rfl rfl, by simp⟩
      | fails | got =>
        obtain rfl := Option.some.inj steps
        exact ⟨.stays rfl rfl rfl rfl, by simp⟩
      | _ => cases steps
  | unlinkReqs dName entries | unlinkData dName entries =>
    cases answer with
    | ok =>
      obtain rfl := Option.some.inj steps
      exact ⟨.stays rfl rfl rfl rfl, by simp⟩
    | _ => cases steps
  | _ => cases steps

theorem goPrinter_moves {p : Printer} {answer : Answer} (at_ : s.printer = p)
    (steps : s.goPrinter p answer = some s') :
    Moves s s' (printerCall s.fs p answer) ∧ (s'.main = .down → s.main = .down) := by
  cases p with
  | waiting =>
    cases answer with
    | ok =>
      simp only [State.goPrinter] at steps
      split at steps
      next => cases steps
      next job queue first =>
        obtain rfl := Option.some.inj steps
        exact ⟨.takes job rfl rfl (by simp [at_, Printer.job]) rfl first, id⟩
    | _ => cases steps
  | openData job =>
    -- a job whose file cannot be opened is done
    have done (ends : s.finish job = s') : Moves s s' (some .free) ∧
        (s'.main = .down → s.main = .down) := by
      subst ends
      exact ⟨.finishes job rfl rfl (by simp [at_, Printer.job]) rfl rfl, id⟩
    cases answer with
    | ok =>
      simp only [State.goPrinter] at steps
      split at steps
      next missing =>
        have call : printerCall s.fs (.openData job) .ok = some .free := by
          simp [printerCall, missing]
        exact call ▸ done (Option.some.inj steps)
      next file found =>
        have call : printerCall s.fs (.openData job) .ok = none := by simp [printerCall, found]
        obtain rfl := Option.some.inj steps
        exact ⟨call ▸ .stays rfl rfl (by simp [at_, Printer.job]) rfl, id⟩
    | fails => exact done (Option.some.inj steps)
    | _ => cases steps
  | fstat job file =>
    cases answer with
    | ok =>
      obtain rfl := Option.some.inj steps
      exact ⟨.stays rfl rfl (by simp [at_, Printer.job]) rfl, id⟩
    | fails =>
      obtain rfl := Option.some.inj steps
      exact ⟨.finishes job rfl rfl (by simp [at_, Printer.job]) rfl rfl, id⟩
    | _ => cases steps
  | unlinkReqs job =>
    cases answer with
    | ok =>
      obtain rfl := Option.some.inj steps
      exact ⟨.finishes job rfl rfl (by simp [at_, Printer.job]) rfl rfl, id⟩
    | _ => cases steps
  | headers job file size =>
    cases answer with
    | wrote n =>
      simp only [State.goPrinter] at steps
      split at steps
      next =>
        obtain rfl := Option.some.inj steps
        exact ⟨.stays rfl rfl rfl rfl, by simp⟩
      next =>
        split at steps
        all_goals
          obtain rfl := Option.some.inj steps
          refine ⟨.stays rfl rfl ?_ rfl, id⟩
        · by_cases text : job.req.isText <;> simp [at_, text, Printer.job]
        · simp [at_, Printer.job]
    | _ => cases steps
  | read job file offset wire =>
    cases answer with
    | ok =>
      simp only [State.goPrinter] at steps
      split at steps
      all_goals
        obtain rfl := Option.some.inj steps
        exact ⟨.stays rfl rfl (by simp [at_, Printer.job]) rfl, id⟩
    | fails =>
      obtain rfl := Option.some.inj steps
      exact ⟨.stays rfl rfl (by simp [at_, Printer.job]) rfl, id⟩
    | _ => cases steps
  | replace job =>
    cases answer with
    | ok =>
      obtain rfl := Option.some.inj steps
      exact ⟨.defers job rfl rfl (by simp [at_, Printer.job]) rfl rfl, id⟩
    | _ => cases steps
  | _ =>
    cases answer with
    | _ =>
      first
      | (obtain rfl := Option.some.inj steps
         exact ⟨.stays rfl rfl (by simp [at_, Printer.job]) rfl, id⟩)
      | cases steps

variable [DecidableEq Tid] {t : Tid}

/-- Clients put their jobs behind the others. -/
theorem goClient_moves {p : Client} {answer : Answer} (steps : s.goClient t p answer = some s') :
    Moves s s' (clientCall p answer) ∧ s'.main = s.main := by
  cases p with
  | addJob req jobid got =>
    cases answer with
    | ok =>
      obtain rfl := Option.some.inj steps
      exact ⟨.adds ⟨jobid, req⟩ rfl rfl rfl rfl, rfl⟩
    | _ => cases steps
  | header =>
    cases answer with
    | got bytes stale =>
      simp only [State.goClient] at steps
      split at steps
      all_goals
        obtain rfl := Option.some.inj steps
        exact ⟨.stays rfl rfl rfl rfl, rfl⟩
    | _ => cases steps
  | reading req jobid file first got =>
    cases answer with
    | got bytes stale =>
      simp only [State.goClient] at steps
      split at steps
      next =>
        obtain rfl := Option.some.inj steps
        exact ⟨.stays rfl rfl rfl rfl, rfl⟩
      next =>
        split at steps
        next => cases steps
        next =>
          obtain rfl := Option.some.inj steps
          exact ⟨.stays rfl rfl rfl rfl, rfl⟩
    | _ => cases steps
  | writing req jobid file got chunk | writeReqs req jobid file got =>
    cases answer with
    | wrote n =>
      simp only [State.goClient] at steps
      split at steps
      next =>
        obtain rfl := Option.some.inj steps
        exact ⟨.stays rfl rfl rfl rfl, rfl⟩
      next =>
        split at steps
        next =>
          obtain rfl := Option.some.inj steps
          exact ⟨.stays rfl rfl rfl rfl, rfl⟩
        next => cases steps
    | fails =>
      obtain rfl := Option.some.inj steps
      exact ⟨.stays rfl rfl rfl rfl, rfl⟩
    | _ => cases steps
  | _ =>
    cases answer with
    | _ =>
      first
      | (obtain rfl := Option.some.inj steps
         exact ⟨.stays rfl rfl rfl rfl, rfl⟩)
      | cases steps

/-- The daemon starts or ends, or some thread goes on. -/
theorem step_moves {label : Label Tid} (steps : step s label = some s') :
    (s.main = .down ∧ listCall s label = some .forget ∧ ∃ entries printerName,
      s' = s.start entries printerName) ∨
      (listCall s label = some .forget ∧ s' = s.crash) ∨
      s.main ≠ .down ∧ s'.main ≠ .down ∧ Moves s s' (listCall s label) := by
  have running (up : s.up = true) : s.main ≠ .down := by
    rintro down
    simp [State.up, down] at up
  cases label with
  | start entries printerName =>
    rw [Printd.step] at steps
    split at steps
    next ready => exact .inl ⟨ready.1, rfl, entries, printerName, (Option.some.inj steps).symm⟩
    next => cases steps
  | main answer =>
    rw [Printd.step] at steps
    split at steps
    next up =>
      obtain ⟨moves, still⟩ := goMain_moves steps
      exact .inr (.inr ⟨running up, still, moves⟩)
    next => cases steps
  | accept t =>
    rw [Printd.step] at steps
    split at steps
    next ready =>
      obtain rfl := Option.some.inj steps
      have up : s.main ≠ .down := by simp [ready.1]
      exact .inr (.inr ⟨up, up, .stays rfl rfl rfl rfl⟩)
    next => cases steps
  | client t answer =>
    rw [Printd.step] at steps
    split at steps
    next up =>
      obtain ⟨moves, same⟩ := goClient_moves steps
      exact .inr (.inr ⟨running up, same ▸ running up, moves⟩)
    next => cases steps
  | printer answer =>
    rw [Printd.step] at steps
    split at steps
    next up =>
      obtain ⟨moves, ends⟩ := goPrinter_moves rfl steps
      exact .inr (.inr ⟨running up, fun down => running up (ends down), moves⟩)
    next => cases steps
  | hangup =>
    rw [Printd.step] at steps
    split at steps
    next up =>
      obtain rfl := Option.some.inj steps
      exact .inr (.inr ⟨running up, running up, .stays rfl rfl rfl rfl⟩)
    next => cases steps
  | crash =>
    rw [Printd.step] at steps
    split at steps
    next => exact .inr (.inl ⟨rfl, (Option.some.inj steps).symm⟩)
    next => cases steps

/-! ### Runs -/

/-- The jobs that were put on the list since the last start are those that are done with, the one
that the printer thread has and those that are on the list, in this order. -/
structure InOrder (s : State Tid) : Prop where
  up : s.main ≠ .down → s.past.added = s.past.done ++ s.pending
  down : s.main = .down → s.pending = []
  before : s.past.done <+: s.past.added

theorem InOrder.step (order : InOrder s) {label : Label Tid} (steps : step s label = some s') :
    InOrder s' := by
  rcases step_moves steps with ⟨down, -, entries, printerName, rfl⟩ | ⟨-, rfl⟩ | ⟨up, still, moves⟩
  · have none_ := order.down down
    exact ⟨fun _ =>
      by simpa [State.start, State.pending] using none_, by simp [State.start], by
      simp [State.start]⟩
  · exact ⟨fun up => absurd rfl up, fun _ => rfl, order.before⟩
  · obtain ⟨jobs, added, rest⟩ := moves.pending
    have all : s'.past.added = s'.past.done ++ s'.pending := by rw [added, order.up up, rest]
    exact ⟨fun _ => all, fun down => absurd down still, ⟨s'.pending, all.symm⟩⟩

/-- **First come, first served**: in every run, over whatever the files hold, the printer thread is
done with the jobs in the order in which they were put on the list, and none is forgotten while the
daemon runs. -/
theorem jobs_in_order (fs : Directory Name) (jobfile : Bytes) (labels : List (Label Tid)) :
    Throughout step InOrder (State.found fs jobfile) labels :=
  throughout_of_steps (fun _ _ _ order steps => order.step steps) (fun _ => id)
    (State.found fs jobfile) labels
    ⟨by simp [State.found, State.init], fun _ => rfl, by simp [State.found, State.init]⟩

end Apue.Printd
