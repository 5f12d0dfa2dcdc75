import MyStudy.Lib.RingBuffer
import MyStudy.Lib.Transition

/-!
# A server that creates its threads first

`serv08.c` and `pthread08.c`: the main thread accepts connections and puts them into `clifd`, and
any number of threads take them out. A step is what a thread does while it holds `clifd_mutex`, or
the service of a client; a thread may also wake up for no reason.
-/
namespace Unp.Serv08

open Transition

def maxncli : Nat := 32

/-- What a thread is about to do: look at the buffer, first or after it was woken, or close a
connection. -/
inductive Point where
  | looking
  | asleep
  | woken
  | serving (connfd : Int)
  deriving DecidableEq

/-- The threads, with what was accepted and who took it. -/
structure State (Thread : Type) where
  clifd : RingBuffer Int maxncli
  quit : Bool
  point : Thread → Point
  threadCount : Thread → Nat
  accepted : List Int
  taken : List (Thread × Int)

inductive Label (Thread : Type) where
  | accept (connfd : Int) (signalled : Option Thread)
  | go (t : Thread)
  | spurious (t : Thread)

variable {Thread : Type} [Fintype Thread] [DecidableEq Thread]

namespace State

def setPoint (s : State Thread) (t : Thread) (point : Point) : State Thread :=
  { s with point := Function.update s.point t point }

/-- What `main` does with a connection; `pthread_cond_signal` wakes a thread if there is one to
wake. -/
def accept (s : State Thread) (connfd : Int) (signalled : Option Thread) : Option (State Thread) :=
  if (s.clifd.put connfd).iput = s.clifd.iget then some { s with quit := true }
  else
    let s' := { s with clifd := s.clifd.put connfd, accepted := s.accepted ++ [connfd] }
    match signalled with
    | some t => if s.point t = .asleep then some (s'.setPoint t .woken) else none
    | none => if ∀ t, s.point t ≠ .asleep then some s' else none

/-- The loop around `pthread_cond_wait`, and what comes behind it. -/
def look (s : State Thread) (t : Thread) : State Thread :=
  if s.clifd.iget = s.clifd.iput then s.setPoint t .asleep
  else
    let connfd := s.clifd.slots s.clifd.iget
    { s with
      clifd := s.clifd.get
      point := Function.update s.point t (.serving connfd)
      threadCount := Function.update s.threadCount t (s.threadCount t + 1)
      taken := s.taken ++ [(t, connfd)] }

def go (s : State Thread) (t : Thread) : Option (State Thread) :=
  match s.point t with
  | .looking | .woken => some (s.look t)
  | .serving _ => some (s.setPoint t .looking)
  | .asleep => none

def init : State Thread where
  clifd := ⟨fun _ => 0, 0, 0, by decide, by decide⟩
  quit := false
  point _ := .looking
  threadCount _ := 0
  accepted := []
  taken := []

/-- The threads that are awake because of a signal and have not looked yet. -/
def woken (s : State Thread) : Finset Thread := Finset.univ.filter fun t => s.point t = .woken

end State

def step (s : State Thread) : Label Thread → Option (State Thread)
  | .accept connfd signalled => if s.quit then none else s.accept connfd signalled
  | .go t => if s.quit then none else s.go t
  | .spurious t => if s.quit ∨ s.point t ≠ .asleep then none else some (s.setPoint t .woken)

/-- Connections are served in the order in which they came, each by one thread; `main` gives up only
when all slots that may be filled are; and while a thread sleeps, as many are on their way as
connections wait. -/
structure Served (s : State Thread) : Prop where
  order : s.accepted = s.taken.map Prod.snd ++ s.clifd.contents
  quits : s.quit = true → s.clifd.contents.length = maxncli - 1
  awake : ∀ t, s.point t = .asleep → s.clifd.contents.length ≤ s.woken.card
  counts : ∀ t, s.threadCount t = (s.taken.filter fun x => x.1 = t).length
  serving : ∀ t connfd, s.point t = .serving connfd → (t, connfd) ∈ s.taken

variable {s s' : State Thread} {t : Thread}

/-! ### Who is awake -/

omit [DecidableEq Thread] in
theorem mem_woken : t ∈ s.woken ↔ s.point t = .woken := by simp [State.woken]

theorem woken_wakes (s : State Thread) (t : Thread) :
    (s.setPoint t .woken).woken = insert t s.woken := by
  ext u
  rw [mem_woken, Finset.mem_insert, mem_woken]
  by_cases same : u = t <;> simp [State.setPoint, same]

theorem woken_goes (s : State Thread) (t : Thread) (point : Point) (other : point ≠ .woken) :
    (s.setPoint t point).woken = s.woken.erase t := by
  ext u
  rw [mem_woken, Finset.mem_erase, mem_woken]
  by_cases same : u = t <;> simp [State.setPoint, same, other]

theorem card_wakes (asleep : s.point t = .asleep) :
    (s.setPoint t .woken).woken.card = s.woken.card + 1 := by
  have absent : t ∉ s.woken := by simp [mem_woken, asleep]
  rw [woken_wakes, Finset.card_insert_of_notMem absent]

/-! ### Steps -/

theorem Served.wakes (served : Served s) (asleep : s.point t = .asleep) :
    Served (s.setPoint t .woken) := by
  refine ⟨served.order, served.quits, fun u sleeps => ?_, served.counts, fun u connfd serves => ?_⟩
  · rw [card_wakes asleep]
    exact (served.awake t asleep).trans (Nat.le_succ _)
  · by_cases same : u = t
    · simp [State.setPoint, same] at serves
    · exact served.serving u connfd (by simpa [State.setPoint, same] using serves)

/-- The new connection wakes a thread, unless none sleeps. -/
theorem Served.accept (served : Served s) (up : s.quit = false) {connfd : Int}
    {signalled : Option Thread} (steps : s.accept connfd signalled = some s') : Served s' := by
  rw [State.accept] at steps
  split at steps
  next full =>
    obtain rfl := Option.some.inj steps
    have all := RingBuffer.following_iput.mp full
    refine ⟨served.order, fun _ => ?_, served.awake, served.counts, served.serving⟩
    rw [RingBuffer.length_contents]
    simp only [maxncli] at all ⊢
    omega
  next room =>
    have longer : (s.clifd.put connfd).contents = s.clifd.contents ++ [connfd] :=
      RingBuffer.contents_put room
    have order : s.accepted ++ [connfd] =
        s.taken.map Prod.snd ++ (s.clifd.put connfd).contents := by
      rw [longer, served.order, List.append_assoc]
    cases signalled with
    | some t =>
      dsimp only at steps
      split at steps
      next asleep =>
        obtain rfl := Option.some.inj steps
        refine ⟨order, fun quit =>
          by simp [State.setPoint, up] at quit, fun u sleeps => ?_, served.counts,
          fun u fd serves => ?_⟩
        · have more := card_wakes asleep
          have before := served.awake t asleep
          change (s.clifd.put connfd).contents.length ≤ (s.setPoint t .woken).woken.card
          rw [more, longer, List.length_append]
          exact Nat.succ_le_succ before
        · exact (served.wakes asleep).serving u fd serves
      next => cases steps
    | none =>
      dsimp only at steps
      split at steps
      next all =>
        obtain rfl := Option.some.inj steps
        exact ⟨order, fun quit =>
          by simp [up] at quit, fun u sleeps => absurd sleeps (all u), served.counts,
          served.serving⟩
      next => cases steps

theorem Served.look (served : Served s) (up : s.quit = false) : Served (s.look t) := by
  rw [State.look]
  split
  next empty =>
    have nothing := RingBuffer.contents_eq_nil.mpr empty
    refine ⟨served.order, fun quit =>
      by simp [State.setPoint, up] at quit, fun u sleeps => ?_, served.counts,
      fun u connfd serves => ?_⟩
    · change s.clifd.contents.length ≤ _
      simp [nothing]
    · by_cases same : u = t
      · simp [State.setPoint, same] at serves
      · exact served.serving u connfd (by simpa [State.setPoint, same] using serves)
  next some_ =>
    have first := RingBuffer.contents_get some_
    refine ⟨?_, fun quit =>
      by simp [up] at quit, fun u sleeps => ?_, fun u => ?_, fun u connfd serves => ?_⟩
    · change s.accepted = (s.taken ++ [(t, s.clifd.slots s.clifd.iget)]).map Prod.snd ++
        s.clifd.get.contents
      rw [served.order, first]
      simp
    · -- a thread that is woken and takes one leaves as many as are left
      have other : u ≠ t := by
        rintro rfl
        simp at sleeps
      have before := served.awake u (by simpa [other] using sleeps)
      rw [first, List.length_cons] at before
      have fewer : s.woken.card - 1 ≤ (s.woken.erase t).card := Finset.pred_card_le_card_erase
      have rest := woken_goes s t (.serving (s.clifd.slots s.clifd.iget)) (by simp)
      change s.clifd.get.contents.length ≤
        (s.setPoint t (.serving (s.clifd.slots s.clifd.iget))).woken.card
      rw [rest]
      omega
    · have count := served.counts u
      by_cases same : u = t
      · subst same
        simp [List.filter_append, count]
      · simp [List.filter_append, same, Ne.symm same, count]
    · by_cases same : u = t
      · have its : s.clifd.slots s.clifd.iget = connfd := by simpa [same] using serves
        simp [same, its]
      · exact List.mem_append_left _ (served.serving u connfd (by simpa [same] using serves))

theorem Served.go (served : Served s) (up : s.quit = false) (steps : s.go t = some s') :
    Served s' := by
  have looks (its : some (s.look t) = some s') : Served s' := Option.some.inj its ▸ served.look up
  rw [State.go] at steps
  split at steps
  next => exact looks steps
  next => exact looks steps
  next connfd at_ =>
    obtain rfl := Option.some.inj steps
    have same : t ∉ s.woken := by simp [mem_woken, at_]
    refine ⟨served.order, served.quits, fun u sleeps => ?_, served.counts, fun u fd serves => ?_⟩
    · rw [woken_goes s t .looking (by simp), Finset.erase_eq_of_notMem same]
      have other : u ≠ t := by
        rintro rfl
        simp [State.setPoint] at sleeps
      exact served.awake u (by simpa [State.setPoint, other] using sleeps)
    · by_cases same : u = t
      · simp [State.setPoint, same] at serves
      · exact served.serving u fd (by simpa [State.setPoint, same] using serves)
  next => cases steps

theorem Served.step (served : Served s) {label : Label Thread} (steps : step s label = some s') :
    Served s' := by
  cases label with
  | accept connfd signalled =>
    rw [Serv08.step] at steps
    split at steps
    next => cases steps
    next up => exact served.accept (by simpa using up) steps
  | go t =>
    rw [Serv08.step] at steps
    split at steps
    next => cases steps
    next up => exact served.go (by simpa using up) steps
  | spurious t =>
    rw [Serv08.step] at steps
    split at steps
    next => cases steps
    next sleeps =>
      obtain rfl := Option.some.inj steps
      rw [not_or, not_ne_iff] at sleeps
      exact served.wakes sleeps.2

/-- **Each connection is served once**, in every run, whoever is woken when. -/
theorem connections_served (labels : List (Label Thread)) :
    Throughout step Served (State.init : State Thread) labels :=
  throughout_of_steps (fun _ _ _ served steps => served.step steps) (fun _ => id) State.init labels
    ⟨by simp [State.init, RingBuffer.contents, RingBuffer.length], by simp [State.init],
      by simp [State.init],
      by simp [State.init], by simp [State.init]⟩

end Unp.Serv08
