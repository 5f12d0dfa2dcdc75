import MyStudy.Unp.Inet

/-!
# What `::` stands for

The loop of `inet_ntop6` finds the first of the longest runs of words that are 0.
-/
namespace Unp

/-- The words of a run are 0. -/
def Zeros (ws : List Nat) (run : Run) : Prop :=
  ∀ i, run.base ≤ i → i < run.base + run.len → ws[i]? = some 0

variable {ws front : List Nat} {run b c : Run} {w : Nat} {best cur : Option Run}

theorem Zeros.le_length (zeros : Zeros ws run) (some_ : 0 < run.len) :
    run.base + run.len ≤ ws.length := by
  have last := zeros (run.base + run.len - 1) (by omega) (by omega)
  have bound := (List.getElem?_eq_some_iff.mp last).1
  omega

theorem Zeros.append (zeros : Zeros front run) (ws : List Nat) : Zeros (front ++ ws) run := by
  intro i first last
  have here := zeros i first last
  rw [List.getElem?_append_left (List.getElem?_eq_some_iff.mp here).1, here]

/-- A run that ends before the last word. -/
theorem Zeros.of_append (zeros : Zeros (front ++ [w]) run)
    (before : run.base + run.len ≤ front.length) :
    Zeros front run := by
  intro i first last
  have here := zeros i first last
  rwa [List.getElem?_append_left (by omega)] at here

/-- A run that ends with the last word is one of the words before, and that. -/
theorem Zeros.shorten (zeros : Zeros (front ++ [w]) run)
    (ends : run.base + run.len = front.length + 1) :
    Zeros front ⟨run.base, run.len - 1⟩ := by
  intro i first last
  dsimp only at first last
  have here := zeros i first (by omega)
  rwa [List.getElem?_append_left (by omega)] at here

/-- The loop has gone through `front`. -/
structure Scanned (front : List Nat) (best cur : Option Run) : Prop where
  cur_zeros : ∀ c, cur = some c → Zeros front c ∧ c.base + c.len = front.length ∧ 0 < c.len
  best_zeros : ∀ b, best = some b → Zeros front b ∧ 0 < b.len
  before : ∀ b c, best = some b → cur = some c → b.base ≤ c.base
  /-- A run that ends here belongs to the current one. -/
  ending : ∀ run, Zeros front run → 0 < run.len → run.base + run.len = front.length →
    ∃ c, cur = some c ∧ c.base ≤ run.base
  covered : ∀ run, Zeros front run → 0 < run.len → (∃ c, cur = some c ∧ c.base ≤ run.base) ∨
    ∃ b, best = some b ∧ run.len ≤ b.len ∧ (run.len = b.len → b.base ≤ run.base)

theorem scanned_start : Scanned [] none none := by
  have nothing (run : Run) (zeros : Zeros [] run) (some_ : 0 < run.len) : False := by
    have bound := zeros.le_length some_
    simp at bound
    omega
  exact ⟨nofun, nofun, nofun, fun run zeros some_ _ => (nothing run zeros some_).elim,
    fun run zeros some_ => (nothing run zeros some_).elim⟩

/-- The current run, with the next word. -/
def Run.extend (i : Nat) : Option Run → Run
  | none => ⟨i, 1⟩
  | some c => { c with len := c.len + 1 }

theorem Scanned.zero (scanned : Scanned front best cur) :
    Scanned (front ++ [0]) best (some (Run.extend front.length cur)) := by
  have extended : Zeros (front ++ [0]) (Run.extend front.length cur) ∧
      (Run.extend front.length cur).base + (Run.extend front.length cur).len = front.length + 1 ∧
      0 < (Run.extend front.length cur).len := by
    cases cur with
    | none =>
      refine ⟨fun i first last => ?_, rfl, Nat.one_pos⟩
      obtain rfl : i = front.length := Nat.le_antisymm (Nat.le_of_lt_succ last) first
      simp
    | some c =>
      obtain ⟨zeros, ends, some_⟩ := scanned.cur_zeros c rfl
      refine ⟨fun i first last => ?_, by rw [Run.extend, ← ends, Nat.add_assoc], Nat.succ_pos _⟩
      by_cases new : i = front.length
      · simp [new]
      · refine zeros.append [0] i first ?_
        simp only [Run.extend] at last
        omega
  -- a run that ends with the new word was the current one, or begins with it
  have ending (run : Run) (zeros : Zeros (front ++ [0]) run) (some_ : 0 < run.len)
      (ends : run.base + run.len = front.length + 1) : (Run.extend front.length cur).base ≤
        run.base := by
    by_cases one : run.len = 1
    · cases cur with
      | none =>
        simp only [Run.extend]
        omega
      | some c =>
        obtain ⟨-, ends', -⟩ := scanned.cur_zeros c rfl
        simp only [Run.extend]
        omega
    · obtain ⟨c, rfl, inside⟩ :=
        scanned.ending _ (zeros.shorten ends) (by simp only; omega) (by simp only; omega)
      exact inside
  refine ⟨?_, fun b its => ?_, ?_, fun run zeros some_ ends => ⟨_, rfl, ?_⟩,
    fun run zeros some_ => ?_⟩
  · rintro _ ⟨⟩
    rw [List.length_append]
    exact extended
  · obtain ⟨zeros, some_⟩ := scanned.best_zeros b its
    exact ⟨zeros.append [0], some_⟩
  · rintro b _ its ⟨⟩
    cases cur with
    | none =>
      obtain ⟨zeros, some_⟩ := scanned.best_zeros b its
      have bound := zeros.le_length some_
      simp only [Run.extend]
      omega
    | some c => exact scanned.before b c its rfl
  · rw [List.length_append] at ends
    exact ending run zeros some_ ends
  · have bound := zeros.le_length some_
    rw [List.length_append, List.length_singleton] at bound
    by_cases ends : run.base + run.len = front.length + 1
    · exact .inl ⟨_, rfl, ending run zeros some_ ends⟩
    · refine (scanned.covered run (zeros.of_append (by omega)) some_).imp_left ?_
      rintro ⟨c, rfl, inside⟩
      exact ⟨_, rfl, inside⟩

theorem Run.better_cases (c : Run) (best : Option Run) :
    (c.better best = c ∧ ∀ b, best = some b → b.len < c.len) ∨
      ∃ b, best = some b ∧ c.better best = b ∧ c.len ≤ b.len := by
  cases best with
  | none => exact .inl ⟨rfl, nofun⟩
  | some b =>
    rw [Run.better]
    by_cases longer : b.len < c.len
    · refine .inl ⟨if_pos longer, ?_⟩
      rintro _ ⟨⟩
      exact longer
    · exact .inr ⟨b, rfl, if_neg longer, not_lt.mp longer⟩

/-- The better one of the current run and the best one before it. -/
theorem Scanned.better (scanned : Scanned front best (some c)) (zeros : Zeros front run)
    (some_ : 0 < run.len) :
    run.len ≤ (c.better best).len ∧
      (run.len = (c.better best).len → (c.better best).base ≤ run.base) := by
  obtain ⟨-, ends, -⟩ := scanned.cur_zeros c rfl
  have bound := zeros.le_length some_
  rcases scanned.covered run zeros some_ with ⟨_, ⟨⟩, inside⟩ | ⟨b, its, short, tie⟩
  · rcases c.better_cases best with ⟨is, -⟩ | ⟨b, its, is, longer⟩
    · rw [is]
      omega
    · have order := scanned.before b c its rfl
      rw [is]
      omega
  · rcases c.better_cases best with ⟨is, longer⟩ | ⟨b', its', is, -⟩
    · have more := longer b its
      rw [is]
      omega
    · obtain rfl := Option.some.inj (its.symm.trans its')
      rw [is]
      exact ⟨short, tie⟩

theorem Scanned.better_zeros (scanned : Scanned front best (some c)) :
    Zeros front (c.better best) ∧ 0 < (c.better best).len := by
  obtain ⟨zeros, -, some_⟩ := scanned.cur_zeros c rfl
  rcases c.better_cases best with ⟨is, -⟩ | ⟨b, its, is, -⟩
  · rw [is]
    exact ⟨zeros, some_⟩
  · rw [is]
    exact scanned.best_zeros b its

/-- A word that is not 0 ends the current run. -/
theorem Scanned.nonzero (scanned : Scanned front best cur) (other : w ≠ 0) :
    Scanned (front ++ [w])
      (match cur with | none => best | some c => some (c.better best)) none := by
  have within {run : Run} (zeros : Zeros (front ++ [w]) run) (some_ : 0 < run.len) :
      run.base + run.len ≤ front.length := by
    have bound := zeros.le_length some_
    rw [List.length_append, List.length_singleton] at bound
    by_contra beyond
    have last := zeros front.length (by omega) (by omega)
    exact other (by simpa using last)
  refine ⟨nofun, fun b its => ?_, nofun, fun run zeros some_ ends => ?_,
    fun run zeros some_ => .inr ?_⟩
  · cases cur with
    | none =>
      obtain ⟨zeros, some_⟩ := scanned.best_zeros b its
      exact ⟨zeros.append [w], some_⟩
    | some c =>
      obtain rfl := Option.some.inj its
      obtain ⟨zeros, some_⟩ := scanned.better_zeros
      exact ⟨zeros.append [w], some_⟩
  · have bound := within zeros some_
    rw [List.length_append, List.length_singleton] at ends
    omega
  · have zeros' := zeros.of_append (within zeros some_)
    cases cur with
    | none =>
      rcases scanned.covered run zeros' some_ with ⟨c, is, -⟩ | found
      · cases is
      · exact found
    | some c => exact ⟨_, rfl, scanned.better zeros' some_⟩

/-- The first of the longest runs, if there is one. -/
def Longest (ws : List Nat) : Option Run → Prop
  | none => ∀ run, Zeros ws run → run.len = 0
  | some b => Zeros ws b ∧ 0 < b.len ∧ ∀ run, Zeros ws run → 0 < run.len →
    run.len ≤ b.len ∧ (run.len = b.len → b.base ≤ run.base)

theorem Scanned.loop (scanned : Scanned front best cur) (ws : List Nat) :
    Longest (front ++ ws) (runsLoop front.length ws best cur) := by
  induction ws generalizing front best cur with
  | nil =>
    rw [List.append_nil]
    cases cur with
    | none =>
      rw [runsLoop]
      have found (run : Run) (zeros : Zeros front run) (some_ : 0 < run.len) :=
        (scanned.covered run zeros some_).resolve_left fun ⟨c, is, _⟩ => by cases is
      cases best with
      | none =>
        intro run zeros
        by_contra some_
        obtain ⟨b, is, -⟩ := found run zeros (Nat.pos_of_ne_zero some_)
        cases is
      | some b =>
        obtain ⟨zeros, some_⟩ := scanned.best_zeros b rfl
        refine ⟨zeros, some_, fun run zeros' some' => ?_⟩
        obtain ⟨_, ⟨⟩, more⟩ := found run zeros' some'
        exact more
    | some c =>
      rw [runsLoop]
      obtain ⟨zeros, some_⟩ := scanned.better_zeros
      exact ⟨zeros, some_, fun run zeros' some' => scanned.better zeros' some'⟩
  | cons w ws ih =>
    rw [List.append_cons]
    by_cases its : w = 0
    · subst its
      have next := ih scanned.zero
      rw [List.length_append, List.length_singleton] at next
      cases cur <;> exact next
    · have next := ih (scanned.nonzero its)
      rw [List.length_append, List.length_singleton] at next
      cases cur <;> (rw [runsLoop, if_neg its]; exact next)

theorem runsLoop_longest (ws : List Nat) : Longest ws (runsLoop 0 ws none none) :=
  scanned_start.loop ws

/-- The first of the longest runs of two words or more. -/
def Shortens (ws : List Nat) : Option Run → Prop
  | none => ∀ run, Zeros ws run → run.len < 2
  | some best => Zeros ws best ∧ 2 ≤ best.len ∧
    ∀ run, Zeros ws run → run.len ≤ best.len ∧ (run.len = best.len → best.base ≤ run.base)

theorem shorthand_shortens (ws : List Nat) : Shortens ws (shorthand ws) := by
  have longest := runsLoop_longest ws
  rw [shorthand]
  cases its : runsLoop 0 ws none none with
  | none =>
    rw [its] at longest
    intro run zeros
    rw [longest run zeros]
    decide
  | some best =>
    rw [its] at longest
    obtain ⟨zeros, -, all⟩ := longest
    by_cases two : 2 ≤ best.len
    · rw [Option.filter_some_pos (by simpa using two)]
      refine ⟨zeros, two, fun run zeros' => ?_⟩
      by_cases some_ : 0 < run.len
      · exact all run zeros' some_
      · omega
    · rw [Option.filter_some_neg (by simpa using two)]
      intro run zeros'
      by_cases some_ : 0 < run.len
      · exact lt_of_le_of_lt (all run zeros' some_).1 (not_le.mp two)
      · omega

theorem zeros_of_shorthand (its : shorthand ws = some run) :
    Zeros ws run ∧ run.base + run.len ≤ ws.length ∧ 2 ≤ run.len := by
  have longest := shorthand_shortens ws
  rw [its] at longest
  obtain ⟨zeros, two, -⟩ := longest
  exact ⟨zeros, zeros.le_length (by omega), two⟩

end Unp
