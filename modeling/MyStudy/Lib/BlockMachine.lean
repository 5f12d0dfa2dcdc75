import Mathlib.Data.List.Basic
import Mathlib.Order.Defs.PartialOrder

/-!
# Machines fed in blocks

A `BlockMachine` takes a stream of symbols in blocks of one fixed size. Its stream arrives in
pieces of any length: a piece is appended to a buffer and every whole block the buffer then holds
is taken off the front. `run` is the abstract meaning, a fold over the whole blocks of the stream.
`feedAll_eq_run` connects the two: what a machine does depends on the concatenation of its pieces
only, and until it halts the buffer holds exactly the part of the stream after the last block.
-/

/-- `halted` stops the machine for good; `step` takes one whole block and emits outputs. -/
structure BlockMachine (α σ ω : Type) where
  size : Nat
  size_pos : 0 < size
  halted : σ → Bool
  step : σ → List α → σ × List ω

namespace BlockMachine

variable {α σ ω : Type}

/-! ### Whole blocks of a stream -/

/-- The whole blocks of `n` symbols at the front of a stream. -/
def blocks (n : Nat) (stream : List α) : List (List α) :=
  (List.range (stream.length / n)).map fun i => (stream.drop (i * n)).take n

/-- What is left of a stream after its whole blocks. -/
def remainder (n : Nat) (stream : List α) : List α :=
  stream.drop (stream.length / n * n)

theorem blocks_short (n : Nat) (stream : List α) (short : stream.length < n) :
    blocks n stream = [] := by
  simp [blocks, Nat.div_eq_of_lt short]

theorem remainder_short (n : Nat) (stream : List α) (short : stream.length < n) :
    remainder n stream = stream := by
  simp [remainder, Nat.div_eq_of_lt short]

private theorem div_drop (n : Nat) (pos : 0 < n) (stream : List α) (enough : n ≤ stream.length) :
    stream.length / n = (stream.drop n).length / n + 1 := by
  rw [List.length_drop, ← Nat.add_div_right _ pos, Nat.sub_add_cancel enough]

theorem blocks_cons (n : Nat) (pos : 0 < n) (stream : List α) (enough : n ≤ stream.length) :
    blocks n stream = stream.take n :: blocks n (stream.drop n) := by
  simp only [blocks, div_drop n pos stream enough, List.range_succ_eq_map, List.map_cons,
    List.map_map, Nat.zero_mul, List.drop_zero, List.cons.injEq, true_and]
  apply List.map_congr_left
  intro i _
  simp only [Function.comp_apply, List.drop_drop, Nat.succ_mul, Nat.add_comm]

theorem remainder_cons (n : Nat) (pos : 0 < n) (stream : List α) (enough : n ≤ stream.length) :
    remainder n stream = remainder n (stream.drop n) := by
  simp only [remainder, div_drop n pos stream enough, List.drop_drop, Nat.succ_mul, Nat.add_comm]

/-- Induction over a stream block by block. -/
theorem blocks_induction (n : Nat) (pos : 0 < n) {motive : List α → Prop}
    (short : ∀ stream, stream.length < n → motive stream)
    (block : ∀ stream, n ≤ stream.length → motive (stream.drop n) → motive stream)
    (stream : List α) : motive stream := by
  induction len : stream.length using Nat.strongRecOn generalizing stream with
  | ind l ih =>
    by_cases h : stream.length < n
    · exact short stream h
    · have enough : n ≤ stream.length := Nat.le_of_not_lt h
      apply block stream enough
      -- dropping a block makes the stream shorter
      exact ih (stream.drop n).length (by rw [List.length_drop]; omega) (stream.drop n) rfl

theorem mem_blocks_length (n : Nat) (stream block : List α) (member : block ∈ blocks n stream) :
    block.length = n := by
  simp only [blocks, List.mem_map, List.mem_range] at member
  obtain ⟨i, bound, rfl⟩ := member
  -- block `i` ends within the stream, so no cut is short
  have fits : (i + 1) * n ≤ stream.length :=
    Nat.le_trans (Nat.mul_le_mul_right n bound) (Nat.div_mul_le_self _ _)
  rw [Nat.succ_mul] at fits
  rw [List.length_take, List.length_drop]
  omega

theorem remainder_length (n : Nat) (pos : 0 < n) (stream : List α) :
    (remainder n stream).length < n := by
  have := Nat.mod_lt stream.length pos
  have := Nat.div_add_mod' stream.length n
  rw [remainder, List.length_drop]
  omega

/-- Extending a stream keeps its blocks; the new ones start in the old remainder. -/
theorem blocks_append (n : Nat) (pos : 0 < n) (stream more : List α) :
    blocks n (stream ++ more) = blocks n stream ++ blocks n (remainder n stream ++ more) := by
  -- a short stream has no block yet and is its own remainder
  induction stream using blocks_induction n pos with
  | short stream h => rw [blocks_short n stream h, remainder_short n stream h, List.nil_append]
  | block stream enough ih =>
    have fits : n ≤ (stream ++ more).length := by rw [List.length_append]; omega
    rw [blocks_cons n pos _ fits, blocks_cons n pos _ enough, remainder_cons n pos _ enough,
      List.take_append_of_le_length enough, List.drop_append_of_le_length enough, ih,
      List.cons_append]

theorem remainder_append (n : Nat) (pos : 0 < n) (stream more : List α) :
    remainder n (stream ++ more) = remainder n (remainder n stream ++ more) := by
  induction stream using blocks_induction n pos with
  | short stream h => rw [remainder_short n stream h]
  | block stream enough ih =>
    have fits : n ≤ (stream ++ more).length := by rw [List.length_append]; omega
    rw [remainder_cons n pos _ fits, remainder_cons n pos _ enough,
      List.drop_append_of_le_length enough, ih]

/-- A stream laid out as whole blocks is cut into exactly these. -/
theorem blocks_flatten (n : Nat) (pos : 0 < n) (bs : List (List α))
    (sizes : ∀ b ∈ bs, b.length = n) : blocks n bs.flatten = bs := by
  induction bs with
  | nil => exact blocks_short n _ pos
  | cons b bs ih =>
    have len : b.length = n := sizes b (by simp)
    have fits : n ≤ (b ++ bs.flatten).length := by rw [List.length_append]; omega
    rw [List.flatten_cons, blocks_cons n pos _ fits, ← len, List.take_left, List.drop_left, len,
      ih fun c member => sizes c (List.mem_cons_of_mem b member)]

theorem flatten_length (n : Nat) (bs : List (List α)) (sizes : ∀ b ∈ bs, b.length = n) :
    bs.flatten.length = n * bs.length := by
  induction bs with
  | nil => rfl
  | cons b bs ih =>
    rw [List.flatten_cons, List.length_append, sizes b (by simp),
      ih fun x member => sizes x (List.mem_cons_of_mem b member), List.length_cons, Nat.mul_succ,
      Nat.add_comm]

theorem flatten_drop (k n : Nat) (bs : List (List α)) (sizes : ∀ b ∈ bs, b.length = n) :
    (bs.drop k).flatten = bs.flatten.drop (n * k) := by
  induction bs generalizing k with
  | nil => simp
  | cons b bs ih =>
    cases k with
    | zero => rfl
    | succ k =>
      -- the first piece has the length of one drop
      have first : (b ++ bs.flatten).drop n = bs.flatten := by
        rw [← sizes b (by simp), List.drop_left]
      rw [List.drop_succ_cons, ih k fun x member => sizes x (List.mem_cons_of_mem b member),
        List.flatten_cons, Nat.mul_succ, Nat.add_comm, ← List.drop_drop, first]

theorem flatten_blocks (n : Nat) (pos : 0 < n) (stream : List α) :
    (blocks n stream).flatten ++ remainder n stream = stream := by
  induction stream using blocks_induction n pos with
  | short stream h => rw [blocks_short n stream h, remainder_short n stream h]; rfl
  | block stream enough ih =>
    rw [blocks_cons n pos _ enough, remainder_cons n pos _ enough, List.flatten_cons,
      List.append_assoc, ih, List.take_append_drop]

/-- A stream of whole blocks leaves nothing. -/
theorem flatten_blocks_of_dvd (n : Nat) (pos : 0 < n) (stream : List α)
    (whole : n ∣ stream.length) : (blocks n stream).flatten = stream := by
  have nothing : remainder n stream = [] := by
    rw [remainder, Nat.div_mul_cancel whole, List.drop_length]
  simpa [nothing] using flatten_blocks n pos stream

@[simp] theorem blocks_length (n : Nat) (stream : List α) :
    (blocks n stream).length = stream.length / n := by simp [blocks]

/-! ### The abstract run -/

/-- The meaning of a machine: one step a block, until it halts. -/
def run (m : BlockMachine α σ ω) (s : σ) : List (List α) → σ × List ω
  | [] => (s, [])
  | b :: bs =>
    if m.halted s then (s, [])
    else
      let next := m.step s b
      let rest := m.run next.1 bs
      (rest.1, next.2 ++ rest.2)

@[simp] theorem run_nil (m : BlockMachine α σ ω) (s : σ) : m.run s [] = (s, []) := rfl

theorem run_halted (m : BlockMachine α σ ω) (s : σ) (bs : List (List α))
    (halt : m.halted s = true) : m.run s bs = (s, []) := by
  cases bs with
  | nil => rfl
  | cons b bs => simp [run, halt]

theorem run_cons (m : BlockMachine α σ ω) (s : σ) (b : List α) (bs : List (List α))
    (go : m.halted s = false) :
    m.run s (b :: bs) =
      ((m.run (m.step s b).1 bs).1, (m.step s b).2 ++ (m.run (m.step s b).1 bs).2) := by
  simp [run, go]

theorem run_append (m : BlockMachine α σ ω) (s : σ) (bs cs : List (List α)) :
    m.run s (bs ++ cs) =
      ((m.run (m.run s bs).1 cs).1, (m.run s bs).2 ++ (m.run (m.run s bs).1 cs).2) := by
  induction bs generalizing s with
  | nil => simp
  | cons b bs ih =>
    cases halt : m.halted s with
    -- a halted machine takes none of the blocks
    | true => simp [run_halted m s _ halt]
    | false =>
      rw [List.cons_append, run_cons m s b _ halt, run_cons m s b bs halt, ih]
      simp only [List.append_assoc]

/-- Simulation along a run: every step moves the abstract value `a` up to one that the next state
represents and that explains the outputs; explanations survive moving up. -/
theorem run_simulated {ι : Type} [Preorder ι] (m : BlockMachine α σ ω) (Rep : ι → σ → Prop)
    (Explains : ι → ω → Prop) (mono : ∀ a b o, a ≤ b → Explains a o → Explains b o)
    (step : ∀ a s b, m.halted s = false → b.length = m.size → Rep a s →
      ∃ c, a ≤ c ∧ Rep c (m.step s b).1 ∧ ∀ o ∈ (m.step s b).2, Explains c o)
    (a : ι) (s : σ) (bs : List (List α)) (sizes : ∀ b ∈ bs, b.length = m.size) (start : Rep a s) :
    ∃ c, a ≤ c ∧ Rep c (m.run s bs).1 ∧ ∀ o ∈ (m.run s bs).2, Explains c o := by
  induction bs generalizing a s with
  | nil => exact ⟨a, le_refl a, start, by simp⟩
  | cons b bs ih =>
    cases halt : m.halted s with
    | true => rw [run_halted m s _ halt]; exact ⟨a, le_refl a, start, by simp⟩
    | false =>
      -- one step up to `c`, and the rest of the run from there up to `d`
      obtain ⟨c, up, rep, outs⟩ := step a s b halt (sizes b (by simp)) start
      obtain ⟨d, further, last, rest⟩ :=
        ih c _ (fun x h => sizes x (List.mem_cons_of_mem b h)) rep
      rw [run_cons m s b bs halt]
      refine ⟨d, le_trans up further, last, fun o member => ?_⟩
      rcases List.mem_append.mp member with h | h
      -- explained when it was made, and so explained at the end
      · exact mono c d o further (outs o h)
      · exact rest o h

/-! ### Feeding pieces through a buffer -/

/-- Take whole blocks off the buffer. A halted machine takes one more off before it stops. -/
def drain (m : BlockMachine α σ ω) : Nat → σ → List α → (σ × List α) × List ω
  | 0, s, buf => ((s, buf), [])
  | rounds + 1, s, buf =>
    if buf.length < m.size then ((s, buf), [])
    -- the block is off the buffer before the machine is asked
    else if m.halted s then ((s, buf.drop m.size), [])
    else
      let next := m.step s (buf.take m.size)
      let rest := m.drain rounds next.1 (buf.drop m.size)
      (rest.1, next.2 ++ rest.2)

/-- Buffer one piece and take the whole blocks off; a buffer gives less blocks than symbols. -/
def feed (m : BlockMachine α σ ω) (f : σ × List α) (piece : List α) : (σ × List α) × List ω :=
  m.drain (f.2 ++ piece).length f.1 (f.2 ++ piece)

def feedAll (m : BlockMachine α σ ω) (f : σ × List α) :
    List (List α) → (σ × List α) × List ω
  | [] => (f, [])
  | piece :: pieces =>
    let now := m.feed f piece
    let rest := m.feedAll now.1 pieces
    (rest.1, now.2 ++ rest.2)

theorem drain_halted (m : BlockMachine α σ ω) (rounds : Nat) (s : σ) (buf : List α)
    (halt : m.halted s = true) :
    (m.drain rounds s buf).1.1 = s ∧ (m.drain rounds s buf).2 = [] := by
  cases rounds with
  | zero => exact ⟨rfl, rfl⟩
  | succ rounds =>
    simp only [drain, halt, if_true]
    split <;> exact ⟨rfl, rfl⟩

/-- With rounds enough for the buffer, draining is the run over its whole blocks, and a machine
that does not halt leaves the remainder. -/
theorem drain_eq_run (m : BlockMachine α σ ω) (rounds : Nat) (s : σ) (buf : List α)
    (enough : buf.length ≤ rounds) :
    (m.drain rounds s buf).1.1 = (m.run s (blocks m.size buf)).1 ∧
    (m.drain rounds s buf).2 = (m.run s (blocks m.size buf)).2 ∧
    (m.halted (m.run s (blocks m.size buf)).1 = false →
      (m.drain rounds s buf).1.2 = remainder m.size buf) := by
  have pos := m.size_pos
  induction rounds generalizing s buf with
  | zero =>
    have short : buf.length < m.size := by omega
    simp [drain, blocks_short m.size buf short, remainder_short m.size buf short]
  | succ rounds ih =>
    by_cases short : buf.length < m.size
    · simp [drain, short, blocks_short m.size buf short, remainder_short m.size buf short]
    · have fits : m.size ≤ buf.length := Nat.le_of_not_lt short
      cases halt : m.halted s with
      | true => simp [run_halted m s _ halt, drain, short, halt]
      | false =>
        -- a round takes at least one symbol off
        have fewer : (buf.drop m.size).length ≤ rounds := by rw [List.length_drop]; omega
        obtain ⟨state, outs, left⟩ := ih (m.step s (buf.take m.size)).1 (buf.drop m.size) fewer
        rw [blocks_cons m.size pos buf fits, remainder_cons m.size pos buf fits,
          run_cons m s _ _ halt]
        simp only [drain, short, halt, if_false, Bool.false_eq_true]
        exact ⟨state, by rw [outs], left⟩

/-- The stream fed so far enters through the buffer: only its remainder matters while the machine
runs, and nothing does once it has halted. -/
theorem feedAll_buffered (m : BlockMachine α σ ω) (f : σ × List α) (old : List α)
    (pieces : List (List α)) (buffered : m.halted f.1 = false → f.2 = remainder m.size old) :
    (m.feedAll f pieces).1.1 =
      (m.run f.1 (blocks m.size (remainder m.size old ++ pieces.flatten))).1 ∧
    (m.feedAll f pieces).2 =
      (m.run f.1 (blocks m.size (remainder m.size old ++ pieces.flatten))).2 ∧
    (m.halted (m.run f.1 (blocks m.size (remainder m.size old ++ pieces.flatten))).1 = false →
      (m.feedAll f pieces).1.2 = remainder m.size (old ++ pieces.flatten)) := by
  have pos := m.size_pos
  induction pieces generalizing f old with
  | nil =>
    have none : blocks m.size (remainder m.size old) = [] :=
      blocks_short _ _ (remainder_length m.size pos old)
    simp only [feedAll, List.flatten_nil, List.append_nil, none, run_nil, true_and]
    exact buffered
  | cons piece pieces ih =>
    cases halt : m.halted f.1 with
    | true =>
      -- the piece is only buffered, and so are all that follow
      obtain ⟨same, silent⟩ := m.drain_halted (f.2 ++ piece).length f.1 (f.2 ++ piece) halt
      have still : m.halted (m.feed f piece).1.1 = true := by rw [feed, same, halt]
      obtain ⟨state, outs, _⟩ := ih (m.feed f piece).1 old (by simp [still])
      rw [run_halted m _ _ still] at state outs
      rw [run_halted m _ _ halt]
      simp only [feedAll, state, outs, halt, Bool.true_eq_false, false_imp_iff, and_true]
      exact ⟨same, by rw [feed, silent, List.append_nil]⟩
    | false =>
      have buf := buffered halt
      obtain ⟨state, outs, left⟩ :=
        m.drain_eq_run (f.2 ++ piece).length f.1 (f.2 ++ piece) (Nat.le_refl _)
      -- what is left of buffer and piece is what is left of the stream so far
      have next := ih (m.feed f piece).1 (old ++ piece) (fun running => by
        rw [remainder_append m.size pos, ← buf]
        exact left (by rw [← state]; exact running))
      rw [remainder_append m.size pos old piece, ← buf] at next
      -- the blocks of the stream: those of buffer and piece, and those that start in what is left
      have split : blocks m.size (f.2 ++ (piece :: pieces).flatten) =
          blocks m.size (f.2 ++ piece) ++
            blocks m.size (remainder m.size (f.2 ++ piece) ++ pieces.flatten) := by
        rw [List.flatten_cons, ← List.append_assoc, blocks_append m.size pos]
      have feedState : (m.feed f piece).1.1 = (m.run f.1 (blocks m.size (f.2 ++ piece))).1 := state
      have feedOuts : (m.feed f piece).2 = (m.run f.1 (blocks m.size (f.2 ++ piece))).2 := outs
      rw [feedState] at next
      rw [← buf, split, run_append]
      simp only [feedAll, feedOuts, next.1, next.2.1, true_and]
      intro running
      rw [next.2.2 running, List.flatten_cons, List.append_assoc]

/-- Feeding any pieces from an empty buffer is the run over the whole blocks of their
concatenation; while the machine has not halted the buffer is the remainder of the stream. -/
theorem feedAll_eq_run (m : BlockMachine α σ ω) (s : σ) (pieces : List (List α)) :
    (m.feedAll (s, []) pieces).1.1 = (m.run s (blocks m.size pieces.flatten)).1 ∧
    (m.feedAll (s, []) pieces).2 = (m.run s (blocks m.size pieces.flatten)).2 ∧
    (m.halted (m.run s (blocks m.size pieces.flatten)).1 = false →
      (m.feedAll (s, []) pieces).1.2 = remainder m.size pieces.flatten) := by
  have nothing : remainder m.size ([] : List α) = [] := remainder_short _ _ m.size_pos
  have general := m.feedAll_buffered (s, []) [] pieces fun _ => nothing.symm
  simpa only [nothing, List.nil_append] using general

/-- Two cuts of one stream drive a machine alike. -/
theorem feedAll_cut_irrelevant (m : BlockMachine α σ ω) (s : σ) (pieces others : List (List α))
    (same : pieces.flatten = others.flatten) :
    (m.feedAll (s, []) pieces).1.1 = (m.feedAll (s, []) others).1.1 ∧
    (m.feedAll (s, []) pieces).2 = (m.feedAll (s, []) others).2 ∧
    (m.halted (m.feedAll (s, []) pieces).1.1 = false →
      (m.feedAll (s, []) pieces).1.2 = (m.feedAll (s, []) others).1.2) := by
  obtain ⟨state, outs, left⟩ := m.feedAll_eq_run s pieces
  obtain ⟨state', outs', left'⟩ := m.feedAll_eq_run s others
  rw [← same] at state' outs' left'
  refine ⟨state.trans state'.symm, outs.trans outs'.symm, fun running => ?_⟩
  rw [state] at running
  rw [left running, left' running]

/-! ### Watching a machine -/

/-- The machine that makes the same steps and emits what `watch` sees at each. -/
def observe {β : Type} (m : BlockMachine α σ ω) (watch : σ → List α → List β) :
    BlockMachine α σ β where
  size := m.size
  size_pos := m.size_pos
  halted := m.halted
  step s b := ((m.step s b).1, watch s b)

section Observe

variable {β : Type} (m : BlockMachine α σ ω) (watch : σ → List α → List β)

theorem observe_run_state (s : σ) (bs : List (List α)) :
    ((m.observe watch).run s bs).1 = (m.run s bs).1 := by
  induction bs generalizing s with
  | nil => rfl
  | cons b bs ih =>
    cases halt : m.halted s with
    | true => rw [run_halted m s _ halt, run_halted (m.observe watch) s _ halt]
    | false =>
      rw [run_cons m s b bs halt, run_cons (m.observe watch) s b bs halt]
      exact ih _

/-- What a machine emits is accounted for by what was seen of it. The invariant ties a state to all
that was seen before. -/
theorem run_accounted (Inv : List β → σ → Prop) (Accounts : List β → ω → Prop)
    (mono : ∀ seen more o, Accounts seen o → Accounts (seen ++ more) o)
    (step : ∀ seen s b, Inv seen s → Inv (seen ++ watch s b) (m.step s b).1 ∧
      ∀ o ∈ (m.step s b).2, Accounts (seen ++ watch s b) o)
    (seen : List β) (s : σ) (bs : List (List α)) (start : Inv seen s) :
    ∀ o ∈ (m.run s bs).2, Accounts (seen ++ ((m.observe watch).run s bs).2) o := by
  induction bs generalizing seen s with
  | nil => simp
  | cons b bs ih =>
    cases halt : m.halted s with
    | true =>
      rw [run_halted m s _ halt]
      simp
    | false =>
      obtain ⟨next, outs⟩ := step seen s b start
      have later := ih (seen ++ watch s b) (m.step s b).1 next
      rw [run_cons m s b bs halt, run_cons (m.observe watch) s b bs halt, ← List.append_assoc]
      intro o member
      rcases List.mem_append.mp member with now | rest
      · exact mono _ _ o (outs o now)
      · exact later o rest

end Observe

end BlockMachine
