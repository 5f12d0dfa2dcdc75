import Mathlib

/-!
# RingBuffer buffers

Slots that are filled and emptied in turn. Where the next one is emptied tells, together with where
the next one is filled, what the buffer holds; one slot always stays free.
-/

structure RingBuffer (A : Type) (size : Nat) where
  slots : Nat → A
  iget : Nat
  iput : Nat
  iget_lt : iget < size
  iput_lt : iput < size

namespace RingBuffer

variable {A : Type} {size : Nat} {r : RingBuffer A size} {a : A}

def following (size i : Nat) : Nat := if i + 1 = size then 0 else i + 1

theorem following_lt {size i : Nat} (small : i < size) : following size i < size := by
  rw [following]
  split <;> omega

def put (r : RingBuffer A size) (a : A) : RingBuffer A size where
  slots := Function.update r.slots r.iput a
  iget := r.iget
  iput := following size r.iput
  iget_lt := r.iget_lt
  iput_lt := following_lt r.iput_lt

def get (r : RingBuffer A size) : RingBuffer A size where
  slots := r.slots
  iget := following size r.iget
  iput := r.iput
  iget_lt := following_lt r.iget_lt
  iput_lt := r.iput_lt

/-- How many slots are filled. -/
def length (r : RingBuffer A size) : Nat :=
  if r.iget ≤ r.iput then r.iput - r.iget else r.iput + size - r.iget

/-- The slot that comes so many behind the first one. -/
def place (r : RingBuffer A size) (i : Nat) : Nat :=
  if r.iget + i < size then r.iget + i else r.iget + i - size

/-- What the buffer holds, from the first on. -/
def contents (r : RingBuffer A size) : List A :=
  (List.range r.length).map fun i => r.slots (r.place i)

@[simp] theorem length_contents (r : RingBuffer A size) : r.contents.length = r.length := by
  simp [contents]

theorem length_lt (r : RingBuffer A size) : r.length < size := by
  have first := r.iget_lt
  have last := r.iput_lt
  rw [length]
  split <;> omega

theorem contents_eq_nil : r.contents = [] ↔ r.iget = r.iput := by
  have first := r.iget_lt
  rw [← List.length_eq_zero_iff, length_contents, length]
  split <;> omega

/-- The buffer is full when the next slot to fill is the next one to empty. -/
theorem following_iput : following size r.iput = r.iget ↔ r.length + 1 = size := by
  have first := r.iget_lt
  have last := r.iput_lt
  rw [following, length]
  split <;> split <;> omega

theorem contents_put (room : following size r.iput ≠ r.iget) :
    (r.put a).contents = r.contents ++ [a] := by
  have first := r.iget_lt
  have last := r.iput_lt
  have longer : (r.put a).length = r.length + 1 := by
    simp only [following] at room
    simp only [length, put, following]
    split_ifs at room ⊢ <;> omega
  have small := (r.put a).length_lt
  have behind : r.place r.length = r.iput := by
    simp only [place, length]
    split <;> split <;> omega
  have others (i : Nat) (before : i < r.length) : r.place i ≠ r.iput := by
    simp only [length] at before
    simp only [place]
    split at before <;> split <;> omega
  rw [contents, longer, List.range_succ, List.map_append, List.map_singleton]
  congr 1
  · refine List.map_congr_left fun i member => ?_
    exact Function.update_of_ne (others i (List.mem_range.mp member)) _ _
  · change [Function.update r.slots r.iput a (r.place r.length)] = [a]
    rw [behind, Function.update_self]

theorem contents_get (some_ : r.iget ≠ r.iput) : r.contents = r.slots r.iget :: r.get.contents := by
  have first := r.iget_lt
  have last := r.iput_lt
  have shorter : r.length = r.get.length + 1 := by
    simp only [length, get, following]
    split <;> split <;> split <;> omega
  have small := r.length_lt
  have here : r.place 0 = r.iget := by simp [place, first]
  rw [contents, shorter, List.range_succ_eq_map, List.map_cons, List.map_map, here]
  congr 1
  refine List.map_congr_left fun i member => ?_
  have before := List.mem_range.mp member
  have same : r.place (i + 1) = r.get.place i := by
    simp only [place, get, following]
    split <;> split <;> split <;> omega
  exact congrArg r.slots same

end RingBuffer
