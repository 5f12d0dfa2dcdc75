import Mathlib.Algebra.Ring.Nat
import Mathlib.Data.List.Basic
import Mathlib.Tactic.Ring

/-!
# Feeding doves

`feedDoves.py`: in every minute one more dove arrives than in the minute before, and all doves that
are there get a portion each, in the order of their arrival, until the food is gone. How many doves
were fed is computed by taking the portions of whole minutes away from the food.
-/
namespace TestProject

/-! ### The computation -/

/-- The loop over the minutes; when it ends without a `break`, `rslt` is what it was. -/
def checkioLoop : List Nat → Int → Int
  | [], _ => 0
  | curMin :: minutes, foodCount =>
    let sumDove : Nat := curMin * (curMin + 1) / 2
    let foodCount := foodCount - sumDove
    if foodCount < 0 then sumDove -
      (if foodCount.natAbs ≥ curMin then curMin else foodCount.natAbs : Nat)
    else if foodCount = 0 then sumDove
    else checkioLoop minutes foodCount

/-- `checkio`, over `xrange(1, 2000)`. -/
def checkio (foodCount : Int) : Int := checkioLoop (List.range' 1 1999) foodCount

/-! ### The doves -/

/-- The portions that each dove has had, in the order of arrival, and the portions that are left. -/
structure Feeding where
  doves : List Nat
  food : Nat

/-- One minute: this many doves arrive, then those at the front are fed. -/
def Feeding.minute (s : Feeding) (arriving : Nat) : Feeding :=
  let doves := s.doves ++ List.replicate arriving 0
  let portions := min s.food doves.length
  { doves := (doves.take portions).map (· + 1) ++ doves.drop portions, food := s.food - portions }

def simulate (foodCount : Nat) : Nat → Feeding
  | 0 => { doves := [], food := foodCount }
  | minutes + 1 => (simulate foodCount minutes).minute (minutes + 1)

/-- The doves that have had a portion. -/
def Feeding.fed (s : Feeding) : Nat := s.doves.countP (0 < ·)

/-! ### One minute -/

variable {s : Feeding} {arriving : Nat}

theorem minute_length : (s.minute arriving).doves.length = s.doves.length + arriving := by
  simp [Feeding.minute]

theorem minute_food : (s.minute arriving).food = s.food - (s.doves.length + arriving) := by
  simp [Feeding.minute]
  omega

/-- A dove counts as fed after the minute when it gets a portion in it, or had one before. -/
theorem minute_fed : (s.minute arriving).fed = min s.food (s.doves.length + arriving) +
    (s.doves.drop (min s.food (s.doves.length + arriving))).countP (0 < ·) := by
  have portions : min s.food (s.doves ++ List.replicate arriving 0).length =
      min s.food (s.doves.length + arriving) := by
    rw [List.length_append, List.length_replicate]
  rw [Feeding.fed, Feeding.minute, portions, List.countP_append, List.countP_map]
  congr 1
  · rw [List.countP_eq_length.mpr (by simp), List.length_take, List.length_append,
      List.length_replicate]
    omega
  · rw [List.drop_append, List.countP_append, List.drop_replicate, List.countP_replicate]
    simp

theorem fed_le_minute : s.fed ≤ (s.minute arriving).fed := by
  rw [minute_fed, Feeding.fed]
  generalize min s.food (s.doves.length + arriving) = portions
  have parts : s.doves.countP (0 < ·) = (s.doves.take portions).countP (0 < ·) +
      (s.doves.drop portions).countP (0 < ·) := by
    rw [← List.countP_append, List.take_append_drop]
  have front : (s.doves.take portions).countP (0 < ·) ≤ portions :=
    List.countP_le_length.trans (List.length_take_le _ _)
  omega

theorem fed_minute_of_empty (empty : s.food = 0) : (s.minute arriving).fed = s.fed := by
  rw [minute_fed, empty, Nat.zero_min, List.drop_zero, Nat.zero_add, Feeding.fed]

/-- Where all have had a portion already, the portions of the minute show when they are for more
doves than these. -/
theorem fed_minute_of_all (all : s.fed = s.doves.length) :
    (s.minute arriving).fed = max s.doves.length (min s.food (s.doves.length + arriving)) := by
  have each : ∀ d ∈ s.doves, decide (0 < d) = true := List.countP_eq_length.mp all
  rw [minute_fed, List.countP_eq_length.mpr fun d member => each d (List.mem_of_mem_drop member),
    List.length_drop]
  omega

/-! ### The run -/

/-- The doves that are there in a minute. -/
def present (minutes : Nat) : Nat := minutes * (minutes + 1) / 2

/-- The portions of all these minutes, where there is one for everybody. -/
def portions : Nat → Nat
  | 0 => 0
  | minutes + 1 => portions minutes + present (minutes + 1)

theorem present_succ (minutes : Nat) : present (minutes + 1) = present minutes + (minutes + 1) := by
  rw [present, present,
    show (minutes + 1) * (minutes + 1 + 1) = minutes * (minutes + 1) + (minutes + 1) * 2 by ring,
    Nat.add_mul_div_right _ _ (by decide)]

theorem portions_eq (minutes : Nat) :
    6 * portions minutes = minutes * (minutes + 1) * (minutes + 2) := by
  induction minutes with
  | zero => rfl
  | succ minutes ih =>
    have even : 2 * present (minutes + 1) = (minutes + 1) * (minutes + 1 + 1) := by
      rw [present, Nat.two_mul_div_two_of_even (Nat.even_mul_succ_self _)]
    rw [portions, Nat.mul_add, ih,
      show 6 * present (minutes + 1) = 3 * (2 * present (minutes + 1)) by ring, even]
    ring

theorem le_portions (minutes : Nat) : minutes ≤ portions minutes := by
  induction minutes with
  | zero => exact Nat.le_refl 0
  | succ minutes ih =>
    rw [portions, present_succ]
    omega

theorem portions_mono {minutes later : Nat} (le : minutes ≤ later) :
    portions minutes ≤ portions later :=
  monotone_nat_of_le_succ (fun minutes => Nat.le_add_right (portions minutes) _) le

variable (foodCount : Nat)

theorem simulate_length (minutes : Nat) :
    (simulate foodCount minutes).doves.length = present minutes := by
  induction minutes with
  | zero => rfl
  | succ minutes ih => rw [simulate, minute_length, ih, present_succ]

theorem simulate_food (minutes : Nat) :
    (simulate foodCount minutes).food = foodCount - portions minutes := by
  induction minutes with
  | zero => rfl
  | succ minutes ih =>
    rw [simulate, minute_food, ih, simulate_length, portions, present_succ]
    omega

theorem simulate_fed_mono {minutes later : Nat} (le : minutes ≤ later) :
    (simulate foodCount minutes).fed ≤ (simulate foodCount later).fed := by
  induction le with
  | refl => exact Nat.le_refl _
  | step _ ih => exact ih.trans fed_le_minute

/-- Once the food is gone, nothing changes. -/
theorem simulate_fed_stable {minutes later : Nat} (le : minutes ≤ later)
    (gone : foodCount ≤ portions minutes) :
    (simulate foodCount later).fed = (simulate foodCount minutes).fed := by
  induction le with
  | refl => rfl
  | @step later le ih =>
    have empty : (simulate foodCount later).food = 0 := by
      have := portions_mono le
      rw [simulate_food]
      omega
    rw [simulate, fed_minute_of_empty empty, ih]

/-- As long as there is a portion for everybody, all are fed. -/
theorem simulate_fed_of_le {minutes : Nat} (enough : portions minutes ≤ foodCount) :
    (simulate foodCount minutes).fed = present minutes := by
  induction minutes with
  | zero => rfl
  | succ minutes ih =>
    rw [portions] at enough
    have all : (simulate foodCount minutes).fed = (simulate foodCount minutes).doves.length := by
      rw [ih (by omega), simulate_length]
    rw [simulate, fed_minute_of_all all, simulate_length, simulate_food, present_succ] at *
    omega

/-- The last minute feeds the doves at the front: more of them than before, or fewer. -/
theorem simulate_fed_last {minutes : Nat} (enough : portions minutes ≤ foodCount)
    (short : foodCount ≤ portions (minutes + 1)) :
    (simulate foodCount (minutes + 1)).fed =
      max (present minutes) (foodCount - portions minutes) := by
  have all : (simulate foodCount minutes).fed = (simulate foodCount minutes).doves.length := by
    rw [simulate_fed_of_le foodCount enough, simulate_length]
  rw [portions, present_succ] at short
  rw [simulate, fed_minute_of_all all, simulate_length, simulate_food]
  omega

/-! ### The loop over the minutes -/

/-- From a minute on before which everybody was fed: where the food is gone within the minutes of
the loop, it gives the doves that have had a portion then. -/
theorem checkioLoop_spec (count minutes : Nat)
    (enough : portions minutes < foodCount ∨ minutes = 0 ∧ foodCount = 0) :
    checkioLoop (List.range' (minutes + 1) count) ((foodCount : Int) - portions minutes) =
      if foodCount ≤ portions (minutes + count) ∧
      count ≠ 0 then ((simulate foodCount (minutes + count)).fed : Int)
      else 0 := by
  induction count generalizing minutes with
  | zero => simp [checkioLoop]
  | succ count ih =>
    have sumDove : (minutes + 1) * (minutes + 1 + 1) / 2 = present (minutes + 1) := rfl
    have next := present_succ minutes
    have total : portions (minutes + 1) = portions minutes + present (minutes + 1) := rfl
    have le : portions minutes ≤ foodCount := by
      rcases enough with lt | ⟨rfl, rfl⟩
      · exact lt.le
      · exact Nat.le_refl 0
    have far := portions_mono (show minutes + 1 ≤ minutes + (count + 1) by omega)
    have left : (foodCount : Int) - portions minutes - present (minutes + 1) =
        foodCount - portions (minutes + 1) := by omega
    -- once the food is gone no more doves are fed
    have stable (gone : foodCount ≤ portions (minutes + 1)) :
        (simulate foodCount (minutes + (count + 1))).fed = (simulate foodCount (minutes + 1)).fed :=
      simulate_fed_stable foodCount (by omega) gone
    rw [List.range'_succ, checkioLoop]
    simp only [sumDove, left]
    rcases Nat.lt_trichotomy foodCount (portions (minutes + 1)) with less | equal | more
    · -- the food is gone in this minute, and those who were there before are fed first
      have within : foodCount ≤ portions (minutes + (count + 1)) ∧ count + 1 ≠ 0 :=
        ⟨by omega, by omega⟩
      have fed := simulate_fed_last foodCount le less.le
      rw [if_pos (by omega), if_pos within, stable less.le, fed]
      split_ifs <;> omega
    · rw [if_neg (by omega), if_pos (by omega), if_pos ⟨by omega, by omega⟩, stable equal.le,
        simulate_fed_of_le foodCount equal.ge]
    · rw [if_neg (by omega), if_neg (by omega), ih (minutes + 1) (.inl more)]
      rw [show minutes + 1 + count = minutes + (count + 1) by omega]
      rcases Nat.eq_zero_or_pos count with rfl | some_
      · rw [Nat.zero_add, if_neg (by simp), if_neg (by omega)]
      · congr 1
        simp only [eq_iff_iff, and_congr_right_iff]
        omega

/-- The result is the doves that have had a portion when the food is gone, for as much food as the
doves of 1999 minutes eat and for no more. -/
theorem checkio_fed_iff (foodCount minutes : Nat) (all : foodCount ≤ minutes) :
    (simulate foodCount minutes).food = 0 ∧
      (checkio foodCount = (simulate foodCount minutes).fed ↔ foodCount ≤ 1333333000) := by
  have gone : foodCount ≤ portions minutes := all.trans (le_portions minutes)
  have bound : portions 1999 = 1333333000 := by
    have := portions_eq 1999
    omega
  have start : portions 0 < foodCount ∨ 0 = 0 ∧ foodCount = 0 := by
    rw [portions]
    omega
  have loop := checkioLoop_spec foodCount 1999 0 start
  have zero : ((portions 0 : Nat) : Int) = 0 := rfl
  rw [zero, sub_zero, Nat.zero_add, Nat.zero_add, bound] at loop
  refine ⟨by rw [simulate_food]; omega, ?_⟩
  rw [checkio, loop]
  split_ifs with within
  · refine iff_of_true ?_ within.1
    rcases Nat.le_total minutes 1999 with le | ge
    · rw [simulate_fed_stable foodCount le gone]
    · rw [simulate_fed_stable foodCount ge (bound ▸ within.1)]
  · have more : ¬ foodCount ≤ 1333333000 := fun le => within ⟨le, by decide⟩
    refine iff_of_false ?_ more
    -- the doves of the first 1999 minutes have all had a portion
    have le : 1999 ≤ minutes := by omega
    have fed : (simulate foodCount 1999).fed = present 1999 :=
      simulate_fed_of_le foodCount (by omega)
    have := simulate_fed_mono foodCount le
    have some_ : 0 < present 1999 := by decide
    omega

theorem checkio_fed_iff_small : (simulate 117 117).food = 0 ∧
    (checkio 117 = (simulate 117 117).fed ↔ 117 ≤ 1333333000) :=
  checkio_fed_iff 117 117 (Nat.le_refl 117)

/-- One portion more, and the loop ends without a result. -/
theorem checkio_too_much : checkio 1333333001 = 0 ∧ 0 < (simulate 1333333001 1333333001).fed := by
  refine ⟨by decide +kernel, ?_⟩
  have first : (simulate 1333333001 1).fed = 1 := simulate_fed_of_le 1333333001 (by decide)
  have := simulate_fed_mono 1333333001 (show 1 ≤ 1333333001 by decide)
  omega

end TestProject
