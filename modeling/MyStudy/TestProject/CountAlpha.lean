import MyStudy.Lib.Bytes
import MyStudy.Lib.Occurrences

/-!
# Counting a text in a file

`countAlpha.py`: the occurrences of a text in a file, counted in the whole file, or by six threads
that take one part of it each.
-/
namespace TestProject

open Occurrences

/-- `str.count`, where the empty text is between all the letters and at both ends. -/
def count (text curChar : Bytes) : Nat :=
  if curChar = [] then text.length + 1 else countFrom curChar 0 text

def countalpha1 (content curChar : Bytes) : Nat := count content curChar

/-- `seek(start)`, then `read(size)`. -/
def countalpha2 (content curChar : Bytes) (start size : Nat) : Nat :=
  count ((content.drop start).take size) curChar

/-- A thread with the arguments for `countalpha2`: `myThread.py`. -/
structure MyThread where
  start : Nat
  size : Nat
  res : Option Nat

def MyThread.run (content curChar : Bytes) (thread : MyThread) : MyThread :=
  { thread with res := some (countalpha2 content curChar thread.start thread.size) }

def maxThreadCount : Nat := 6

/-- `lmtCountalpha`, where the threads run in the order of `schedule`. The sum of a list with `None`
in it raises an exception. -/
def lmtCountalpha (content curChar : Bytes) (schedule : List Nat) : Option Nat :=
  let filesize := content.length
  let partsize := filesize / maxThreadCount + 1
  let threads := (List.range maxThreadCount).map
    fun i => { start := i * partsize, size := partsize, res := none }
  let threads :=
    schedule.foldl (fun threads i => threads.modify i (MyThread.run content curChar)) threads
  (threads.mapM MyThread.res).map List.sum

/-- A thread that is in the schedule has run, and no other thread has changed it. -/
theorem getElem?_foldl_modify (run : MyThread → MyThread) (schedule : List Nat)
    (unique : schedule.Nodup) (threads : List MyThread) (j : Nat) :
    (schedule.foldl (fun threads i => threads.modify i run) threads)[j]? =
      threads[j]?.map fun thread => if j ∈ schedule then run thread else thread := by
  induction schedule generalizing threads with
  | nil => simp
  | cons i schedule ih =>
    obtain ⟨absent, unique⟩ := List.nodup_cons.mp unique
    rw [List.foldl_cons, ih unique, List.getElem?_modify]
    cases threads[j]? with
    | none => rfl
    | some thread =>
      by_cases here : i = j
      · subst here
        simp [absent]
      · simp [here, Ne.symm here]

variable {content curChar : Bytes} {schedule : List Nat}

/-- The threads, all of them at their ends. -/
theorem lmtCountalpha_eq (order : schedule.Perm (List.range maxThreadCount))
    (some_ : curChar ≠ []) :
    lmtCountalpha content curChar schedule =
      some (partsCount curChar content (content.length / maxThreadCount + 1) maxThreadCount) := by
  have unique : schedule.Nodup := order.nodup_iff.mpr List.nodup_range
  rw [lmtCountalpha]
  generalize content.length / maxThreadCount + 1 = size
  -- each thread runs once, in whatever order, and writes but its own result
  have done : schedule.foldl (fun threads i => threads.modify i (MyThread.run content curChar))
      ((List.range maxThreadCount).map fun i => { start := i * size, size := size, res := none }) =
        (List.range maxThreadCount).map fun i =>
          { start := i * size, size := size,
            res := some (countalpha2 content curChar (i * size) size) } := by
    refine List.ext_getElem? fun j => ?_
    rw [getElem?_foldl_modify _ schedule unique, List.getElem?_map, List.getElem?_map,
      Option.map_map]
    by_cases below : j < maxThreadCount
    · have member : j ∈ schedule := order.mem_iff.mpr (List.mem_range.mpr below)
      rw [List.getElem?_range below]
      simp [member, MyThread.run]
    · rw [List.getElem?_eq_none (by simpa using below)]
      rfl
  rw [done, List.mapM_map]
  have each (is : List Nat) : is.mapM (fun i => MyThread.res
      { start := i * size, size := size,
        res := some (countalpha2 content curChar (i * size) size) }) =
        some (is.map fun i => countFrom curChar 0 ((content.drop (i * size)).take size)) := by
    induction is with
    | nil => rfl
    | cons i is ih =>
      rw [List.mapM_cons, ih]
      simp [countalpha2, count, some_]
  exact congrArg (Option.map List.sum) (each (List.range maxThreadCount))

/-- The threads count what the whole file has just where as many occurrences that do not overlap can
be chosen without those that lie across the end of a part as with them. -/
theorem lmtCountalpha_eq_iff (content curChar : Bytes) (some_ : curChar ≠ [])
    (schedule : List Nat) (order : schedule.Perm (List.range maxThreadCount)) :
    lmtCountalpha content curChar schedule = some (countalpha1 content curChar) ↔
      ∃ ps, Chosen curChar content 0 ps ∧
      (∀ qs, Chosen curChar content 0 qs → qs.length ≤ ps.length) ∧
        ∀ p ∈ ps, Uncut (content.length / maxThreadCount + 1) curChar.length p := by
  have all : content.length ≤ maxThreadCount * (content.length / maxThreadCount + 1) := by
    rw [maxThreadCount]
    omega
  rw [lmtCountalpha_eq order some_, countalpha1, count, if_neg some_, Option.some_inj]
  exact partsCount_eq_iff some_ all

theorem lmtCountalpha_eq_iff_html :
    lmtCountalpha (ascii "<html></html>") (ascii "html") [3, 0, 5, 1, 4, 2] =
        some (countalpha1 (ascii "<html></html>") (ascii "html")) ↔
      ∃ ps, Chosen (ascii "html") (ascii "<html></html>") 0 ps ∧
        (∀ qs, Chosen (ascii "html") (ascii "<html></html>") 0 qs → qs.length ≤ ps.length) ∧
        ∀ p ∈ ps, Uncut ((ascii "<html></html>").length / maxThreadCount + 1)
        (ascii "html").length p :=
  lmtCountalpha_eq_iff _ _ (by decide) _ (by decide)

/-- Each part of this file has three bytes, so no thread sees the text. -/
theorem lmtCountalpha_html :
    lmtCountalpha (ascii "<html></html>") (ascii "html") [0, 1, 2, 3, 4, 5] = some 0 ∧
      countalpha1 (ascii "<html></html>") (ascii "html") = 2 := by
  decide

end TestProject
