import MyStudy.Apue.PrintdOrder
import MyStudy.Lib.DoublyLinked

/-!
# The list of pending jobs in memory

`add_job`, `remove_job` and `replace_job` as they change `jobhead`, `jobtail` and the links of the
jobs. The list that the threads work with is the one that is linked there.
-/
namespace Apue.Printd

open Links Transition

/-! ### The functions -/

/-- `add_job`, from `jp->next = NULL` on. -/
def addLinks (d : Links Nat) (jp : Nat) : Links Nat :=
  let d := (d.setNext jp none).setPrev jp d.tail
  let d := match d.tail with
    | none => d.setHead (some jp)
    | some tail => d.setNext tail (some jp)
  d.setTail (some jp)

/-- `replace_job`. -/
def replaceLinks (d : Links Nat) (jp : Nat) : Links Nat :=
  let d := (d.setPrev jp none).setNext jp d.head
  let d := match d.head with
    | none => d.setTail (some jp)
    | some head => d.setPrev head (some jp)
  d.setHead (some jp)

/-- `remove_job`. -/
def removeLinks (d : Links Nat) (target : Nat) : Links Nat :=
  let d := match d.next target with
    | some next => d.setPrev next (d.prev target)
    | none => d.setTail (d.prev target)
  match d.prev target with
  | some prev => d.setNext prev (d.next target)
  | none => d.setHead (d.next target)

/-- The jobs in memory: `malloc` gives a new place to each, and `jp` is the one of the printer
thread. -/
structure Jobs where
  links : Links Nat
  job : Nat → Job
  made : Nat
  jp : Option Nat

namespace Jobs

/-- A call; the printer thread takes `jobhead`, and it puts back or frees the job that it has. -/
def call (m : Jobs) : ListCall → Option Jobs
  | .add job =>
    some { m with
      links := addLinks m.links m.made
      job := Function.update m.job m.made job
      made := m.made + 1 }
  | .take => m.links.head.map fun jp => { m with links := removeLinks m.links jp, jp := some jp }
  | .replace => m.jp.map fun jp => { m with links := replaceLinks m.links jp, jp := none }
  | .free => m.jp.map fun _ => { m with jp := none }
  | .forget => some { m with links := .empty, jp := none }

/-- The list, and the job of the printer thread. -/
structure Holds (m : Jobs) (queue : List Job) (job : Option Job) (l : List Nat) : Prop where
  lists : m.links.Lists l
  queue : l.map m.job = queue
  job : m.jp.map m.job = job
  known : ∀ a ∈ m.jp.toList ++ l, a < m.made
  apart : (m.jp.toList ++ l).Nodup

end Jobs

/-! ### Calls -/

theorem addLinks_eq (d : Links Nat) (jp : Nat) : addLinks d jp = d.append jp := by
  cases last : d.tail with
  | none => simp [addLinks, setNext, setPrev, setHead, setTail, Links.append, turned, Links.insert,
              last]
  | some tail => simp [addLinks, setNext, setPrev, setTail, Links.append, turned, Links.insert,
                   last]

theorem replaceLinks_eq (d : Links Nat) (jp : Nat) : replaceLinks d jp = d.insert jp := by
  cases first : d.head with
  | none => simp [replaceLinks, setNext, setPrev, setHead, setTail, Links.insert, first]
  | some head => simp [replaceLinks, setNext, setPrev, setHead, Links.insert, first]

theorem removeLinks_eq {d : Links Nat} {target : Nat} (other : d.next target ≠ some target) :
    removeLinks d target = d.remove target := by
  cases behind : d.next target with
  | none =>
    cases before : d.prev target with
    | none => simp [removeLinks, setTail, setHead, Links.remove, behind, before]
    | some prev => simp [removeLinks, setTail, setNext, Links.remove, behind, before]
  | some next =>
    have apart : target ≠ next := by
      rintro rfl
      exact other behind
    cases before : d.prev target with
    | none => simp [removeLinks, setPrev, setHead, Links.remove, behind, before,
                Function.update_of_ne apart]
    | some prev => simp [removeLinks, setPrev, setNext, Links.remove, behind, before,
                     Function.update_of_ne apart]

namespace Jobs

variable {m : Jobs} {queue : List Job} {job : Job} {its : Option Job} {l : List Nat}

theorem Holds.add (holds : m.Holds queue its l) :
    ∃ m', m.call (.add job) = some m' ∧ m'.Holds (queue ++ [job]) its (l ++ [m.made]) := by
  have new (a : Nat) (member : a ∈ m.jp.toList ++ l) : a ≠ m.made := (holds.known a member).ne
  have absent : m.made ∉ l := fun member => new _ (List.mem_append_right _ member) rfl
  have same (a : Nat) (member : a ∈ m.jp.toList ++ l) :
      Function.update m.job m.made job a = m.job a :=
    Function.update_of_ne (new a member) _ _
  refine ⟨_, rfl, ?_, ?_, ?_, fun a member => ?_, ?_⟩
  · change (addLinks m.links m.made).Lists (l ++ [m.made])
    rw [addLinks_eq]
    exact holds.lists.append absent
  · have old : l.map (Function.update m.job m.made job) = l.map m.job :=
      List.map_congr_left fun a member => same a (List.mem_append_right _ member)
    simp [old, holds.queue]
  · rw [← holds.job]
    cases at_ : m.jp with
    | none => rfl
    | some jp => exact congrArg some (same jp (by simp [at_]))
  · rw [← List.append_assoc, List.mem_append, List.mem_singleton] at member
    rcases member with old | rfl
    · exact (holds.known a old).trans (Nat.lt_succ_self _)
    · exact Nat.lt_succ_self _
  · rw [← List.append_assoc, List.nodup_append]
    exact ⟨holds.apart, List.nodup_singleton _, fun a old b last => by
      rw [List.mem_singleton.mp last]
      exact new a old⟩

theorem Holds.take (holds : m.Holds (job :: queue) none l) :
    ∃ m' l', m.call .take = some m' ∧ m'.Holds queue (some job) l' := by
  have free : m.jp = none := Option.map_eq_none_iff.mp holds.job
  obtain ⟨jp, l, rfl, rfl, rfl⟩ := List.map_eq_cons_iff.mp holds.queue
  have lists : m.links.Lists ([] ++ jp :: l) := holds.lists
  refine ⟨{ m with links := removeLinks m.links jp, jp := some jp }, l,
    by simp [call, holds.lists.head], ?_, rfl,
    rfl, fun a member => ?_, ?_⟩
  · change (removeLinks m.links jp).Lists l
    rw [removeLinks_eq lists.next_ne]
    exact lists.remove
  · exact holds.known a (by simpa [free] using member)
  · simpa [free] using holds.apart

theorem Holds.replace (holds : m.Holds queue (some job) l) :
    ∃ m' l', m.call .replace = some m' ∧ m'.Holds (job :: queue) none l' := by
  obtain ⟨jp, at_, rfl⟩ := Option.map_eq_some_iff.mp holds.job
  have apart : jp ∉ l ∧ l.Nodup := by simpa [at_] using holds.apart
  refine ⟨{ m with links := replaceLinks m.links jp, jp := none }, jp :: l,
    by simp [call, at_], ?_, ?_, rfl,
    fun a member => ?_, ?_⟩
  · change (replaceLinks m.links jp).Lists (jp :: l)
    rw [replaceLinks_eq]
    exact holds.lists.insert apart.1
  · simp [holds.queue]
  · exact holds.known a (by simpa [at_] using member)
  · simpa using apart

theorem Holds.free (holds : m.Holds queue (some job) l) :
    ∃ m', m.call .free = some m' ∧ m'.Holds queue none l := by
  obtain ⟨jp, at_, rfl⟩ := Option.map_eq_some_iff.mp holds.job
  refine ⟨{ m with jp := none },
    by simp [call, at_], holds.lists, holds.queue, rfl, fun a member => ?_, ?_⟩
  · exact holds.known a (List.mem_append_right _ member)
  · have apart := (List.nodup_append.mp holds.apart).2.1
    exact apart

theorem Holds.forget (m : Jobs) : ∃ m', m.call .forget = some m' ∧ m'.Holds [] none [] :=
  ⟨_, rfl, lists_empty _ rfl rfl, rfl, rfl, by simp, by simp⟩

end Jobs

/-! ### Runs -/

variable {Tid : Type} [DecidableEq Tid]

/-- A step of the daemon, with what it does in memory; it fails if something points nowhere. -/
def stepInMemory (both : State Tid × Jobs) (label : Label Tid) : Option (State Tid × Jobs) :=
  match step both.1 label with
  | none => none
  | some s =>
    match listCall both.1 label with
    | none => some (s, both.2)
    | some call => (both.2.call call).map fun m => (s, m)

def Jobs.init (job : Nat → Job) : Jobs := ⟨.empty, job, 0, none⟩

/-- The list in memory is the one of the model. -/
def Linked (both : State Tid × Jobs) : Prop :=
  (∃ l, both.2.Holds both.1.queue both.1.printer.job l) ∧
    (both.1.main = .down → both.1.pending = [])

theorem Linked.step {s s' : State Tid} {m : Jobs} {label : Label Tid} (linked : Linked (s, m))
    (steps : step s label = some s') :
    ∃ m', stepInMemory (s, m) label = some (s', m') ∧ Linked (s', m') := by
  obtain ⟨⟨l, holds⟩, down⟩ := linked
  have does {call : ListCall} {m' : Jobs} (its : listCall s label = some call)
    (calls : m.call call = some m') :
      stepInMemory (s, m) label = some (s', m') := by
    simp [stepInMemory, steps, its, calls]
  rcases step_moves steps with ⟨at_, its, entries, printerName, rfl⟩ | ⟨its, rfl⟩ | ⟨up,
    still, moves⟩
  · obtain ⟨m', calls, after⟩ := Jobs.Holds.forget m
    obtain ⟨none_, empty⟩ : s.printer.job = none ∧ s.queue = [] := by
      simpa [State.pending] using down at_
    refine ⟨m', does its calls, ⟨[], ?_⟩, by simp [State.start]⟩
    simpa [State.start, none_, empty] using after
  · obtain ⟨m', calls, after⟩ := Jobs.Holds.forget m
    exact ⟨m', does its calls, ⟨[], after⟩, fun _ => rfl⟩
  · have down' : s'.main = .down → s'.pending = [] := fun ends => absurd ends still
    generalize its : listCall s label = call at moves
    cases moves with
    | stays _ _ job queue =>
      refine ⟨m, by simp [stepInMemory, steps, its], ⟨l, ?_⟩, down'⟩
      rwa [queue, job]
    | adds job _ _ same queue =>
      have added : ∃ m', m.call (.add job) = some m' ∧
          m'.Holds (s.queue ++ [job]) s.printer.job (l ++ [m.made]) := holds.add
      obtain ⟨m', calls, after⟩ := added
      refine ⟨m', does its calls, ⟨l ++ [m.made], ?_⟩, down'⟩
      rwa [queue, same]
    | takes job _ _ before behind queue =>
      rw [before, queue] at holds
      obtain ⟨m', l', calls, after⟩ := holds.take
      refine ⟨m', does its calls, ⟨l', ?_⟩, down'⟩
      rwa [behind]
    | defers job _ _ before behind queue =>
      rw [before] at holds
      obtain ⟨m', l', calls, after⟩ := holds.replace
      refine ⟨m', does its calls, ⟨l', ?_⟩, down'⟩
      rwa [behind, queue]
    | finishes job _ _ before behind queue =>
      rw [before] at holds
      obtain ⟨m', calls, after⟩ := holds.free
      refine ⟨m', does its calls, ⟨l, ?_⟩, down'⟩
      rwa [behind, queue]

theorem Linked.run {s : State Tid} {m : Jobs} (linked : Linked (s, m)) (labels : List (Label Tid)) :
    (labels.foldlM stepInMemory (s, m)).map Prod.fst = labels.foldlM Printd.step s := by
  induction labels generalizing s m with
  | nil => rfl
  | cons label labels ih =>
    rw [List.foldlM_cons, List.foldlM_cons]
    cases steps : Printd.step s label with
    | none => simp [stepInMemory, steps]
    | some s' =>
      obtain ⟨m', both, after⟩ := linked.step steps
      rw [both]
      exact ih after

/-- **The list in memory**: in every run of the daemon the functions never follow a link that is not
there, and what is linked between `jobhead` and `jobtail`, in both directions, is the list of
jobs. -/
theorem jobs_linked (job : Nat → Job) (labels : List (Label Tid)) :
    (labels.foldlM stepInMemory (State.init, Jobs.init job)).map Prod.fst =
      labels.foldlM step State.init ∧
      Throughout stepInMemory (fun both => ∃ l, both.2.Holds both.1.queue both.1.printer.job l)
        (State.init, Jobs.init job) labels := by
  have first : Linked ((State.init : State Tid), Jobs.init job) :=
    ⟨⟨[], lists_empty _ rfl rfl, rfl, rfl, by simp [Jobs.init], by simp [Jobs.init]⟩, fun _ => rfl⟩
  refine ⟨first.run labels, throughout_of_steps (fun both label after linked goes => ?_)
    (fun both linked => linked.1) _ labels first⟩
  obtain ⟨s, m⟩ := both
  cases steps : Printd.step s label with
  | none => simp [stepInMemory, steps] at goes
  | some s' =>
    obtain ⟨m', memory, after'⟩ := linked.step steps
    rw [goes, Option.some_inj] at memory
    rwa [memory]

end Apue.Printd
