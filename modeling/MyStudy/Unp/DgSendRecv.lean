import Mathlib
import MyStudy.Lib.Bytes
import MyStudy.Lib.Transition

/-!
# Requests over datagrams

`dg_send_recv.c` and `dg_cli.c`, with the server of `dg_echo.c`. Datagrams may get lost, come twice
or in another order; the timer may run out at any time.
-/
namespace Unp.Rtt

open Transition

def maxline : Nat := 4096

def sizeofHdr : Nat := 8

def rttMaxnrexmt : Nat := 3

/-- `struct hdr`, and what stands behind it. -/
structure Datagram where
  seq : UInt32
  ts : UInt32
  data : Bytes
  deriving DecidableEq

/-- Where `dg_cli` is: it reads a line, it waits for the answer to one, or it has given up. -/
inductive Phase where
  | reading
  | waiting (sendline : Bytes) (nrexmt : Nat)
  | quit
  deriving DecidableEq

/-- What was ever sent can be delivered, any number of times. -/
structure State where
  seq : UInt32
  phase : Phase
  toServer : List Datagram
  toClient : List Datagram
  asked : List Bytes
  replies : List Bytes
  deriving DecidableEq

inductive Label where
  | ask (sendline : Bytes) (ts : UInt32)
  | serve (d : Datagram)
  | receive (d : Datagram)
  | timeout (ts : UInt32)
  deriving DecidableEq

/-- What `recvfrom` leaves of a datagram. -/
def echoed (data : Bytes) : Bytes := data.take (maxline - sizeofHdr)

def step (s : State) : Label → Option State
  | .ask sendline ts =>
    if s.phase = .reading ∧ sendline.length < maxline then
      some { s with
        seq := s.seq + 1
        phase := .waiting sendline 0
        toServer := ⟨s.seq + 1, ts, sendline⟩ :: s.toServer
        asked := s.asked ++ [sendline] }
    else none
  | .serve d =>
    -- `dg_echo`
    if s.toServer.contains d then some
      { s with toClient := ⟨d.seq, d.ts, echoed d.data⟩ :: s.toClient } else none
  | .receive d =>
    match s.phase with
    | .waiting _ _ =>
      if s.toClient.contains d then
        if d.seq = s.seq then some { s with phase := .reading, replies := s.replies ++ [d.data] }
          else some s
      else none
    | _ => none
  | .timeout ts =>
    match s.phase with
    | .waiting sendline nrexmt =>
      if nrexmt + 1 > rttMaxnrexmt then some { s with phase := .quit }
      else
        some { s with
          phase := .waiting sendline (nrexmt + 1)
          toServer := ⟨s.seq, ts, sendline⟩ :: s.toServer }
    | _ => none

def State.init : State := ⟨0, .reading, [], [], [], []⟩

/-- The line that a number belongs to. -/
def Asks (s : State) (seq : UInt32) (sendline : Bytes) : Prop :=
  ∃ i, s.asked[i]? = some sendline ∧ seq = UInt32.ofNat (i + 1)

/-- How often a request was sent. -/
def State.sends (s : State) (seq : UInt32) : Nat := (s.toServer.filter fun d => d.seq = seq).length

/-- What the client relies on: each line gets the answer to itself, as much as the server reads of
it, and none is sent more than four times. -/
structure Answered (s : State) : Prop where
  replies : s.replies = (s.asked.take s.replies.length).map echoed
  all : s.asked.length ≤ s.replies.length + 1
  sends : ∀ seq, s.sends seq ≤ rttMaxnrexmt + 1

/-- What is under way. -/
structure Sound (s : State) : Prop where
  seq : s.seq = UInt32.ofNat s.asked.length
  toServer : ∀ d ∈ s.toServer, Asks s d.seq d.data
  toClient : ∀ d ∈ s.toClient, ∃ sendline, Asks s d.seq sendline ∧ d.data = echoed sendline
  replies : s.replies = (s.asked.take s.replies.length).map echoed
  reading : s.phase = .reading → s.asked.length = s.replies.length
  waiting : ∀ sendline nrexmt, s.phase = .waiting sendline nrexmt →
    s.asked.length = s.replies.length + 1 ∧ s.asked[s.replies.length]? = some sendline ∧
      s.sends s.seq = nrexmt + 1 ∧ nrexmt ≤ rttMaxnrexmt
  quit : s.phase = .quit → s.asked.length = s.replies.length + 1
  sends : ∀ seq, s.sends seq ≤ rttMaxnrexmt + 1

variable {s s' : State} {seq : UInt32} {sendline : Bytes}

theorem Sound.answered (sound : Sound s) : Answered s := by
  refine ⟨sound.replies, ?_, sound.sends⟩
  cases at_ : s.phase with
  | reading => exact (sound.reading at_).le.trans (Nat.le_succ _)
  | waiting sendline nrexmt => exact (sound.waiting _ _ at_).1.le
  | quit => exact (sound.quit at_).le

theorem Asks.mono (asks : Asks s seq sendline) (grows : s.asked <+: s'.asked) :
    Asks s' seq sendline := by
  obtain ⟨i, line, its⟩ := asks
  obtain ⟨more, rest⟩ := grows
  refine ⟨i, ?_, its⟩
  rw [← rest, List.getElem?_append_left (List.getElem?_eq_some_iff.mp line).1]
  exact line

theorem toNat_seq {n : Nat} (few : n < 2 ^ 32) : (UInt32.ofNat n).toNat = n := by
  rw [UInt32.toNat_ofNat', Nat.mod_eq_of_lt few]

/-- A number belongs to one line, as long as none was given twice. -/
theorem Asks.last (asks : Asks s (UInt32.ofNat s.asked.length) sendline)
    (few : s.asked.length < 2 ^ 32) :
    s.asked[s.asked.length - 1]? = some sendline := by
  obtain ⟨i, line, its⟩ := asks
  have before := (List.getElem?_eq_some_iff.mp line).1
  have same := congrArg UInt32.toNat its
  rw [toNat_seq few, toNat_seq (by omega)] at same
  rw [same]
  exact line

theorem Asks.ne_next (asks : Asks s seq sendline) (few : s.asked.length + 1 < 2 ^ 32) :
    seq ≠ UInt32.ofNat (s.asked.length + 1) := by
  rintro rfl
  obtain ⟨i, line, its⟩ := asks
  have before := (List.getElem?_eq_some_iff.mp line).1
  have same := congrArg UInt32.toNat its
  rw [toNat_seq few, toNat_seq (by omega)] at same
  omega

/-! ### Steps -/

theorem sends_cons (s : State) (d : Datagram) (seq : UInt32) (phase : Phase) (asked : List Bytes)
    (now : UInt32) :
    ({ s with seq := now, phase, asked, toServer := d :: s.toServer } : State).sends seq =
      (if d.seq = seq then 1 else 0) + s.sends seq := by
  by_cases its : d.seq = seq
  · simp [State.sends, its, Nat.add_comm]
  · simp [State.sends, its]

/-- A new number is one that nothing has yet. -/
theorem Sound.ask (sound : Sound s) (few : s.asked.length + 1 < 2 ^ 32)
    (reading : s.phase = .reading) (ts : UInt32) :
    Sound { s with
      seq := s.seq + 1
      phase := .waiting sendline 0
      toServer := ⟨s.seq + 1, ts, sendline⟩ :: s.toServer
      asked := s.asked ++ [sendline] } := by
  have next : s.seq + 1 = UInt32.ofNat (s.asked.length + 1) := by
    rw [sound.seq, UInt32.ofNat_add]
    rfl
  have done := sound.reading reading
  have grows : s.asked <+: s.asked ++ [sendline] := List.prefix_append _ _
  have fresh : s.sends (s.seq + 1) = 0 := by
    rw [State.sends, List.length_eq_zero_iff, List.filter_eq_nil_iff]
    intro d sent its
    rw [decide_eq_true_eq, next] at its
    exact (sound.toServer d sent).ne_next few its
  constructor
  · simpa using next
  · intro d sent
    rcases List.mem_cons.mp sent with rfl | before
    · exact ⟨s.asked.length, by simp, next⟩
    · exact (sound.toServer d before).mono grows
  · intro d sent
    obtain ⟨line, asks, data⟩ := sound.toClient d sent
    exact ⟨line, asks.mono grows, data⟩
  · change s.replies = ((s.asked ++ [sendline]).take s.replies.length).map echoed
    rw [List.take_append_of_le_length done.ge]
    exact sound.replies
  · intro reads
    cases reads
  · rintro line nrexmt ⟨⟩
    refine ⟨by simp [done], by simp [← done], ?_, Nat.zero_le _⟩
    rw [sends_cons, if_pos rfl, fresh]
  · intro quits
    cases quits
  · intro seq
    rw [sends_cons]
    split
    next its =>
      subst its
      rw [fresh]
      decide
    next => simpa using sound.sends seq

theorem Sound.again (sound : Sound s) {nrexmt : Nat} (at_ : s.phase = .waiting sendline nrexmt)
    (room : ¬ nrexmt + 1 > rttMaxnrexmt) (ts : UInt32) :
    Sound { s with
      phase := .waiting sendline (nrexmt + 1)
      toServer := ⟨s.seq, ts, sendline⟩ :: s.toServer } := by
  obtain ⟨behind, its, times, -⟩ := sound.waiting _ _ at_
  have asks : Asks s s.seq sendline := ⟨s.replies.length, its, by rw [sound.seq, behind]⟩
  constructor
  · exact sound.seq
  · intro d sent
    rcases List.mem_cons.mp sent with rfl | before
    · exact asks
    · exact sound.toServer d before
  · exact sound.toClient
  · exact sound.replies
  · intro reads
    cases reads
  · rintro line more ⟨⟩
    refine ⟨behind, its, ?_, Nat.le_of_not_lt room⟩
    rw [sends_cons, if_pos rfl, times, Nat.add_comm]
  · intro quits
    cases quits
  · intro seq
    rw [sends_cons]
    split
    next same =>
      change s.seq = seq at same
      rw [← same, times]
      omega
    next => simpa using sound.sends seq

/-- The answer to the current line is one to no other line. -/
theorem Sound.receive (sound : Sound s) (few : s.asked.length < 2 ^ 32) {nrexmt : Nat}
    (at_ : s.phase = .waiting sendline nrexmt) {d : Datagram} (sent : d ∈ s.toClient)
    (its : d.seq = s.seq) :
    Sound { s with phase := .reading, replies := s.replies ++ [d.data] } := by
  obtain ⟨behind, current, -⟩ := sound.waiting _ _ at_
  obtain ⟨line, asks, data⟩ := sound.toClient d sent
  rw [its, sound.seq] at asks
  have same : line = sendline := by
    have last := asks.last few
    rw [behind, Nat.add_sub_cancel, current] at last
    exact (Option.some.inj last).symm
  subst same
  refine ⟨sound.seq, sound.toServer, sound.toClient, ?_, fun _ => by simp [behind],
    fun _ _ waits => by simp at waits, fun quits => by simp at quits, sound.sends⟩
  change s.replies ++ [d.data] = (s.asked.take (s.replies ++ [d.data]).length).map echoed
  rw [List.length_append, List.length_singleton, List.take_add_one, current, List.map_append,
    ← sound.replies, data]
  rfl

theorem Sound.step (sound : Sound s) (few : s'.asked.length < 2 ^ 32) {label : Label}
    (steps : step s label = some s') : Sound s' := by
  cases label with
  | ask sendline ts =>
    rw [Rtt.step] at steps
    split at steps
    next ready =>
      obtain rfl := Option.some.inj steps
      exact sound.ask (by simpa using few) ready.1 ts
    next => cases steps
  | serve d =>
    rw [Rtt.step] at steps
    split at steps
    next sent =>
      obtain rfl := Option.some.inj steps
      have asks := sound.toServer d (List.contains_iff_mem.mp sent)
      refine ⟨sound.seq, sound.toServer, fun e answer => ?_, sound.replies, sound.reading,
        sound.waiting, sound.quit,
        sound.sends⟩
      rcases List.mem_cons.mp answer with rfl | before
      · exact ⟨d.data, asks, rfl⟩
      · exact sound.toClient e before
    next => cases steps
  | receive d =>
    rw [Rtt.step] at steps
    split at steps
    next sendline nrexmt at_ =>
      split at steps
      next sent =>
        split at steps
        next its =>
          obtain rfl := Option.some.inj steps
          exact sound.receive few at_ (List.contains_iff_mem.mp sent) its
        next =>
          obtain rfl := Option.some.inj steps
          exact sound
      next => cases steps
    next => cases steps
  | timeout ts =>
    rw [Rtt.step] at steps
    split at steps
    next sendline nrexmt at_ =>
      split at steps
      next =>
        obtain rfl := Option.some.inj steps
        exact ⟨sound.seq, sound.toServer, sound.toClient, sound.replies,
          fun reads => by simp at reads,
          fun _ _ waits => by simp at waits, fun _ => (sound.waiting _ _ at_).1, sound.sends⟩
      next room =>
        obtain rfl := Option.some.inj steps
        exact sound.again at_ room ts
    next => cases steps

/-- No step takes a line back. -/
theorem asked_grows {label : Label} (steps : step s label = some s') :
    s.asked.length ≤ s'.asked.length := by
  cases label with
  | ask sendline ts =>
    rw [Rtt.step] at steps
    split at steps
    · obtain rfl := Option.some.inj steps
      simp
    · cases steps
  | serve d =>
    rw [Rtt.step] at steps
    split at steps
    · obtain rfl := Option.some.inj steps
      exact le_rfl
    · cases steps
  | receive d =>
    rw [Rtt.step] at steps
    split at steps
    · split at steps
      · split at steps
        all_goals
          obtain rfl := Option.some.inj steps
          exact le_rfl
      · cases steps
    · cases steps
  | timeout ts =>
    rw [Rtt.step] at steps
    split at steps
    · split at steps
      all_goals
        obtain rfl := Option.some.inj steps
        exact le_rfl
    · cases steps

/-! ### Runs -/

/-- **No line gets the answer to another one**: in every run, as long as there were less than 2 ^ 32
lines, whatever the network does, the answers are those to the lines in their order. -/
theorem lines_answered (labels : List Label) :
    Throughout step (fun s => s.asked.length < 2 ^ 32 → Answered s) State.init labels := by
  refine throughout_of_steps (I := fun s => s.asked.length < 2 ^ 32 → Sound s)
    (fun s label s' sound steps few => ?_)
    (fun s sound few => (sound few).answered) State.init labels fun _ => ?_
  · exact (sound ((asked_grows steps).trans_lt few)).step few steps
  · exact ⟨rfl, by simp [State.init], by simp [State.init], rfl, fun _ => rfl, by simp [State.init],
      by simp [State.init], fun _ => Nat.zero_le _⟩

end Unp.Rtt
