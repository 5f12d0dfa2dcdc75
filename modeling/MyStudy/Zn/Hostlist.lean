import MyStudy.Lib.LineBuffer
import MyStudy.Zn.Misc

/-!
# The host list

`zn_hostlist` reads a file of keys and addresses, one pair to a line. A line goes through a buffer
of 256 characters, and comes out of it as a C string.
-/
namespace Zn.Hostlist

abbrev newline : UInt8 := '\n'.toUInt8

/-- `SP_CHAR`. -/
def isSp (c : UInt8) : Bool := c = ' '.toUInt8 || c = '\t'.toUInt8

/-- `find_first_of` and `find_first_not_of` from a position on: the place of the first character
that meets `p`. -/
def findFirst (p : UInt8 → Bool) (s : Bytes) (pos : Nat) : Option Nat :=
  ((s.drop pos).findIdx? p).map (pos + ·)

def substr (s : Bytes) (pos n : Nat) : Bytes := (s.drop pos).take n

/-- `_parse_hostlist`: the pair it makes, if it returns `true`. -/
def parseHostlist (fileLine : Bytes) : Option (Bytes × Bytes) := do
  let posStart ← findFirst (!isSp ·) fileLine 0
  let posEnd := (findFirst isSp fileLine posStart).getD fileLine.length
  let first := substr fileLine posStart (posEnd - posStart)
  match findFirst (!isSp ·) fileLine posEnd with
  | none => return (first, [])
  | some posStart =>
    let posEnd := (findFirst isSp fileLine posStart).getD fileLine.length
    return (first, substr fileLine posStart (posEnd - posStart))

def hostlistBufSize : Nat := 256

/-- The texts of the rounds of the loop. -/
def readLines (file : Bytes) : List Bytes :=
  (LineBuffer.getlines newline hostlistBufSize (file.length + 1) file).map cstr

/-- `_hostlist[key] = value`. -/
def assign (hosts : List (Bytes × Bytes)) (host : Bytes × Bytes) : List (Bytes × Bytes) :=
  host :: hosts.filter fun other => other.1 ≠ host.1

/-- `load` on a fresh object: what it returns, and `_hostlist`. -/
def load (file : Bytes) : Bool × List (Bytes × Bytes) :=
  let hosts := (readLines file).foldl (fun hosts line =>
    match parseHostlist line with
    | none => hosts
    | some host => assign hosts host) []
  (hosts.length ≠ 0, hosts)

def getIp (hosts : List (Bytes × Bytes)) (parameterName : Bytes) : Bytes :=
  (hosts.lookup parameterName).getD []

/-! ### Words and lines -/

/-- The words of a line, between blanks and tabs. -/
def words (line : Bytes) : List Bytes := (line.splitOnP isSp).filter (· ≠ [])

def lines (file : Bytes) : List Bytes := file.splitOn newline

/-- The pair a line is for. -/
def hostOf (line : Bytes) : Option (Bytes × Bytes) :=
  (words line).head?.map fun key => (key, (words line).getD 1 [])

/-- The second word of the last line with this first one. -/
def ipOf (file key : Bytes) : Bytes :=
  match (lines file).reverse.find? fun line => (words line).head? = some key with
  | none => []
  | some line => (words line).getD 1 []

/-- The pairs that the rounds enter. -/
def entered (file : Bytes) : List (Bytes × Bytes) := (readLines file).filterMap parseHostlist

/-- The list answers as the file says, and each line is read for itself: the pairs entered are those
of the lines, one after the other. -/
structure Answers (file : Bytes) : Prop where
  getIp : ∀ key, getIp (load file).2 key = ipOf file key
  lineByLine : entered file = (lines file).filterMap hostOf

/-- What the buffer holds of a line. -/
def buffered (line : Bytes) : Bytes := cstr (line.take (hostlistBufSize - 1))

/-- The lines lose none of their first two words in the buffer, and behind one that is too long for
it there are only blank ones. -/
structure Fit (lines : List Bytes) : Prop where
  whole : ∀ line ∈ lines, hostOf (buffered line) = hostOf line
  last : ∀ before line after, lines = before ++ line :: after → hostlistBufSize ≤ line.length →
    ∀ other ∈ after, hostOf other = none

/-! ### The words of a line -/

/-- A line from its first word on. -/
def skip (line : Bytes) : Bytes := line.dropWhile isSp

def firstWord (line : Bytes) : Bytes := (skip line).takeWhile (!isSp ·)

def behindWord (line : Bytes) : Bytes := (skip line).dropWhile (!isSp ·)

theorem words_nil : words [] = [] := rfl

theorem words_cons_sp (c : UInt8) (rest : Bytes) (blank : isSp c = true) :
    words (c :: rest) = words rest := by
  rw [words, List.splitOnP_cons_eq_if_modifyHead, if_pos blank, List.filter_cons_of_neg (by simp),
    words]

theorem words_skip (line : Bytes) : words (skip line) = words line := by
  induction line with
  | nil => rfl
  | cons c rest ih =>
    by_cases blank : isSp c = true
    · rw [words_cons_sp c rest blank, ← ih, skip, List.dropWhile_cons_of_pos blank, skip]
    · rw [skip, List.dropWhile_cons_of_neg blank]

theorem words_eq_nil (line : Bytes) (blank : skip line = []) : words line = [] := by
  rw [← words_skip, blank, words_nil]

theorem words_eq_cons (line : Bytes) (some_ : skip line ≠ []) :
    words line = firstWord line :: words (behindWord line) := by
  have plain : ∀ c ∈ firstWord line, isSp c = false := fun c member => by
    simpa using List.mem_takeWhile_imp member
  have first : firstWord line ≠ [] := by
    obtain ⟨c, rest, here⟩ := List.exists_cons_of_ne_nil some_
    have nonblank := List.head?_dropWhile_not isSp line
    rw [show line.dropWhile isSp = c :: rest from here] at nonblank
    change isSp c = false at nonblank
    rw [firstWord, here, List.takeWhile_cons_of_pos (by rw [nonblank]; rfl)]
    exact List.cons_ne_nil _ _
  have whole : firstWord line ++ behindWord line = skip line := List.takeWhile_append_dropWhile
  rw [← words_skip, ← whole]
  cases rest : behindWord line with
  | nil =>
    rw [List.append_nil, words, List.splitOnP_eq_singleton plain,
      List.filter_cons_of_pos (by simpa using first)]
    rfl
  | cons c more =>
    have stops := List.head?_dropWhile_not (!isSp ·) (skip line)
    rw [show (skip line).dropWhile (!isSp ·) = c :: more from rest] at stops
    have blank : isSp c = true := by simpa using stops
    rw [words_cons_sp c more blank, words, List.splitOnP_append_cons_of_forall_mem plain c blank,
      List.filter_cons_of_pos (by simpa using first), words]

/-! ### The positions -/

theorem findIdx?_eq (p : UInt8 → Bool) (s : Bytes) :
    s.findIdx? p = if s.dropWhile (!p ·) = [] then none else some (s.takeWhile (!p ·)).length := by
  induction s with
  | nil => rfl
  | cons c rest ih =>
    rw [List.findIdx?_cons]
    by_cases here : p c = true
    · rw [if_pos here, List.dropWhile_cons_of_neg (by simp [here]), if_neg (List.cons_ne_nil _ _),
        List.takeWhile_cons_of_neg (by simp [here])]
      rfl
    · rw [if_neg here, List.dropWhile_cons_of_pos (by simp [here]),
        List.takeWhile_cons_of_pos (by simp [here]), ih]
      split <;> rfl

/-- Where the next word starts. -/
theorem findFirst_word (line : Bytes) (pos : Nat) : findFirst (!isSp ·) line pos =
    if skip (line.drop pos) = [] then none
      else some (pos + ((line.drop pos).takeWhile isSp).length) := by
  rw [findFirst, findIdx?_eq]
  simp only [Bool.not_not]
  rw [skip]
  split <;> rfl

/-- Where a word ends. -/
theorem findFirst_end (line : Bytes) (pos : Nat) (inside : pos ≤ line.length) :
    (findFirst isSp line pos).getD line.length =
      pos + ((line.drop pos).takeWhile (!isSp ·)).length := by
  rw [findFirst, findIdx?_eq]
  split
  next all =>
    have whole := List.takeWhile_append_dropWhile (p := (!isSp ·)) (l := line.drop pos)
    rw [all, List.append_nil] at whole
    rw [whole, List.length_drop]
    exact (Nat.add_sub_cancel' inside).symm
  next => rfl

theorem drop_takeWhile (p : UInt8 → Bool) (s : Bytes) :
    s.drop (s.takeWhile p).length = s.dropWhile p :=
  calc s.drop (s.takeWhile p).length
      = (s.takeWhile p ++ s.dropWhile p).drop (s.takeWhile p).length := by
        rw [List.takeWhile_append_dropWhile]
    _ = s.dropWhile p := List.drop_left

theorem take_takeWhile (p : UInt8 → Bool) (s : Bytes) :
    s.take (s.takeWhile p).length = s.takeWhile p :=
  calc s.take (s.takeWhile p).length
      = (s.takeWhile p ++ s.dropWhile p).take (s.takeWhile p).length := by
        rw [List.takeWhile_append_dropWhile]
    _ = s.takeWhile p := List.take_left

/-- The positions around the first word behind `pos`, and the word between them. -/
theorem word_at (line rest : Bytes) (pos : Nat) (inside : pos ≤ line.length)
    (here : line.drop pos = rest) :
    findFirst (!isSp ·) line pos =
      (if skip rest = [] then none else some (pos + (rest.takeWhile isSp).length)) ∧
    ∀ posStart posEnd, posStart = pos + (rest.takeWhile isSp).length →
      posEnd = (findFirst isSp line posStart).getD line.length →
      substr line posStart (posEnd - posStart) = firstWord rest ∧ posEnd ≤ line.length ∧
        line.drop posEnd = behindWord rest := by
  refine ⟨by rw [findFirst_word, here], ?_⟩
  rintro posStart posEnd rfl rfl
  have length : rest.length = line.length - pos := by rw [← here, List.length_drop]
  have before := (List.takeWhile_prefix (l := rest) isSp).length_le
  have start : line.drop (pos + (rest.takeWhile isSp).length) = skip rest := by
    rw [← List.drop_drop, here, drop_takeWhile, skip]
  have word := (List.takeWhile_prefix (l := skip rest) (!isSp ·)).length_le
  have left : (skip rest).length = line.length - (pos + (rest.takeWhile isSp).length) := by
    rw [← start, List.length_drop]
  rw [findFirst_end line _ (by omega), start]
  refine ⟨?_, by omega, ?_⟩
  · rw [substr, start, Nat.add_sub_cancel_left, take_takeWhile, firstWord]
  · rw [← List.drop_drop, start, drop_takeWhile, behindWord]

/-- The four searches find the first two words. -/
theorem parseHostlist_eq (line : Bytes) : parseHostlist line = hostOf line := by
  obtain ⟨first, word⟩ := word_at line line 0 (Nat.zero_le _) List.drop_zero
  rw [parseHostlist, first]
  by_cases blank : skip line = []
  · rw [if_pos blank, hostOf, words_eq_nil line blank]
    rfl
  · rw [if_neg blank, hostOf, words_eq_cons line blank]
    obtain ⟨key, inside, behind⟩ := word _ _ rfl rfl
    obtain ⟨second, word'⟩ := word_at line (behindWord line) _ inside behind
    rw [Option.bind_eq_bind, Option.bind_some]
    dsimp only
    rw [key, second]
    by_cases only : skip (behindWord line) = []
    · rw [if_pos only, words_eq_nil _ only]
      rfl
    · rw [if_neg only, words_eq_cons _ only]
      dsimp only
      rw [(word' _ _ rfl rfl).1]
      rfl

/-! ### The map -/

theorem lookup_filter (hosts : List (Bytes × Bytes)) (name key : Bytes) (other : key ≠ name) :
    (hosts.filter fun host => host.1 ≠ name).lookup key = hosts.lookup key := by
  induction hosts with
  | nil => rfl
  | cons host hosts ih =>
    by_cases kept : host.1 = name
    · have apart : (key == host.1) = false := by simpa [kept] using other
      rw [List.filter_cons_of_neg (by simpa using kept), ih, List.lookup_cons, apart]
    · rw [List.filter_cons_of_pos (by simpa using kept), List.lookup_cons, List.lookup_cons, ih]

theorem lookup_assign (hosts : List (Bytes × Bytes)) (host : Bytes × Bytes) (key : Bytes) :
    (assign hosts host).lookup key = ([host].lookup key).or (hosts.lookup key) := by
  by_cases same : key = host.1
  · subst same
    rw [assign, List.lookup_cons_self, List.lookup_cons_self]
    rfl
  · have apart : (key == host.1) = false := by simpa using same
    rw [assign, List.lookup_cons, apart, List.lookup_cons, apart]
    exact lookup_filter hosts host.1 key same

theorem lookup_foldl (entries hosts : List (Bytes × Bytes)) (key : Bytes) :
    (entries.foldl assign hosts).lookup key =
      (entries.reverse.lookup key).or (hosts.lookup key) := by
  induction entries generalizing hosts with
  | nil => rfl
  | cons entry entries ih =>
    rw [List.foldl_cons, ih, lookup_assign, List.reverse_cons, List.lookup_append, Option.or_assoc]

theorem load_eq (file : Bytes) : (load file).2 = (entered file).foldl assign [] := by
  rw [load, entered]
  dsimp only
  generalize ([] : List (Bytes × Bytes)) = hosts
  induction readLines file generalizing hosts with
  | nil => rfl
  | cons line lines ih =>
    rw [List.foldl_cons, List.filterMap_cons]
    cases parseHostlist line with
    | none => exact ih hosts
    | some host => exact ih (assign hosts host)

/-- The entries are in the map for their keys, the last one of each. -/
theorem getIp_load (file key : Bytes) :
    getIp (load file).2 key = ((entered file).reverse.lookup key).getD [] := by
  rw [getIp, load_eq, lookup_foldl, List.lookup_nil, Option.or_none]

theorem lookup_hosts (lines : List Bytes) (key : Bytes) :
    (lines.filterMap hostOf).lookup key =
      (lines.find? fun line => (words line).head? = some key).map
      fun line => (words line).getD 1 [] := by
  induction lines with
  | nil => rfl
  | cons line lines ih =>
    rw [List.filterMap_cons, hostOf]
    cases first : (words line).head? with
    | none =>
      rw [List.find?_cons_of_neg (by simp [first])]
      exact ih
    | some name =>
      rw [Option.map_some]
      dsimp only
      rw [List.lookup_cons]
      by_cases same : key = name
      · subst same
        rw [List.find?_cons_of_pos (by simp [first]), beq_self_eq_true]
        rfl
      · have apart : (key == name) = false := by simpa using same
        rw [List.find?_cons_of_neg (by simpa [first] using Ne.symm same), apart]
        exact ih

theorem ipOf_eq (file key : Bytes) :
    ipOf file key = (((lines file).filterMap hostOf).reverse.lookup key).getD [] := by
  rw [ipOf, ← List.filterMap_reverse, lookup_hosts]
  cases (lines file).reverse.find? fun line => (words line).head? = some key <;> rfl

/-! ### The lines through the buffer -/

/-- The pairs entered for lines that come through the buffer. -/
def throughBuffer : List Bytes → List (Bytes × Bytes)
  | [] => []
  | line :: lines =>
    (hostOf (buffered line)).toList ++
      if hostlistBufSize ≤ line.length then [] else throughBuffer lines

theorem entered_eq (file : Bytes) : entered file = throughBuffer (lines file) := by
  rw [entered, readLines,
    LineBuffer.getlines_splitOn newline hostlistBufSize _ _ (Nat.lt_succ_self _)]
  change _ = throughBuffer (file.splitOn newline)
  rw [funext parseHostlist_eq]
  induction file.splitOn newline with
  | nil => rfl
  | cons line lines ih =>
    rw [LineBuffer.cutOpen, throughBuffer]
    by_cases long : hostlistBufSize ≤ line.length
    · rw [if_pos long, if_pos long, List.append_nil, List.map_singleton, List.filterMap_cons,
        List.filterMap_nil, buffered]
      cases hostOf (cstr (line.take (hostlistBufSize - 1))) <;> rfl
    · have whole : buffered line = cstr line := by rw [buffered, List.take_of_length_le (by omega)]
      rw [if_neg long, if_neg long, List.map_cons, List.filterMap_cons, ih, whole]
      cases hostOf (cstr line) <;> rfl

theorem hostOf_eq_none (line : Bytes) : hostOf line = none ↔ ∀ c ∈ line, isSp c = true := by
  rw [← List.dropWhile_eq_nil_iff, hostOf, Option.map_eq_none_iff, List.head?_eq_none_iff]
  constructor
  · intro none_
    by_contra some_
    rw [words_eq_cons line some_] at none_
    cases none_
  · exact words_eq_nil line

/-- The buffer makes no words. -/
theorem length_hostOf_buffered (line : Bytes) :
    (hostOf (buffered line)).toList.length ≤ (hostOf line).toList.length := by
  cases own : hostOf line with
  | some host => cases hostOf (buffered line) <;> simp
  | none =>
    have blank := (hostOf_eq_none line).mp own
    have sub : ∀ c ∈ buffered line, isSp c = true := fun c member =>
      blank c (List.mem_of_mem_take ((List.takeWhile_prefix _).subset member))
    rw [(hostOf_eq_none _).mpr sub]

theorem filterMap_hostOf_cons (line : Bytes) (lines : List Bytes) :
    (line :: lines).filterMap hostOf = (hostOf line).toList ++ lines.filterMap hostOf := by
  rw [List.filterMap_cons]
  cases hostOf line <;> rfl

theorem length_throughBuffer (lines : List Bytes) :
    (throughBuffer lines).length ≤ (lines.filterMap hostOf).length := by
  induction lines with
  | nil => exact le_rfl
  | cons line lines ih =>
    have here := length_hostOf_buffered line
    rw [throughBuffer, filterMap_hostOf_cons, List.length_append, List.length_append]
    split
    · exact Nat.add_le_add here (Nat.zero_le _)
    · exact Nat.add_le_add here ih

theorem fit_cons (line : Bytes) (lines : List Bytes) : Fit (line :: lines) ↔
    hostOf (buffered line) = hostOf line ∧
      (hostlistBufSize ≤ line.length → lines.filterMap hostOf = []) ∧
      Fit lines := by
  rw [List.filterMap_eq_nil_iff]
  constructor
  · intro fit
    refine ⟨fit.whole line List.mem_cons_self, fit.last [] line lines rfl,
      fun other member => fit.whole other (List.mem_cons_of_mem _ member), ?_⟩
    rintro before long after rfl
    exact fit.last (line :: before) long after rfl
  · rintro ⟨here, long, fit⟩
    refine ⟨fun other member => ?_, fun before line' after whole tooLong => ?_⟩
    · rcases List.mem_cons.mp member with rfl | later
      · exact here
      · exact fit.whole other later
    · cases before with
      | nil =>
        obtain ⟨rfl, rfl⟩ := List.cons.inj whole
        exact long tooLong
      | cons first before => exact fit.last before line' after (List.cons.inj whole).2 tooLong

theorem toList_inj {a b : Option (Bytes × Bytes)} (same : a.toList = b.toList) : a = b := by
  cases b with
  | none => exact Option.toList_eq_nil_iff.mp same
  | some host => exact Option.toList_eq_singleton_iff.mp same

/-- The pairs are those of the lines exactly if the lines fit: a line gives no more pairs through
the buffer than by itself, so the two lists agree only line by line. -/
theorem throughBuffer_eq_iff (lines : List Bytes) :
    throughBuffer lines = lines.filterMap hostOf ↔ Fit lines := by
  induction lines with
  | nil => exact iff_of_true rfl ⟨nofun, fun before _ _ whole => by cases before <;> cases whole⟩
  | cons line lines ih =>
    have here := length_hostOf_buffered line
    have rest := length_throughBuffer lines
    rw [fit_cons, ← ih, throughBuffer, filterMap_hostOf_cons]
    by_cases long : hostlistBufSize ≤ line.length
    · rw [if_pos long, List.append_nil]
      constructor
      · intro same
        have lengths := congrArg List.length same
        rw [List.length_append] at lengths
        -- behind a line that is too long no other is read
        have nothing : lines.filterMap hostOf = [] := List.length_eq_zero_iff.mp (by omega)
        rw [nothing, List.append_nil] at same
        refine ⟨toList_inj same, fun _ => nothing, ?_⟩
        rw [nothing] at rest ⊢
        exact List.length_eq_zero_iff.mp (Nat.le_zero.mp rest)
      · rintro ⟨same, nothing, -⟩
        rw [nothing long, List.append_nil, same]
    · rw [if_neg long]
      constructor
      · intro same
        have lengths := congrArg List.length same
        rw [List.length_append, List.length_append] at lengths
        -- the parts have the same lengths, so they agree one by one
        obtain ⟨first, others⟩ := List.append_inj same (by omega)
        exact ⟨toList_inj first, fun tooLong => absurd tooLong long, others⟩
      · rintro ⟨same, -, others⟩
        rw [same, others]

/-- The host list answers as its file says exactly if the lines of the file fit. -/
theorem answers_iff (file : Bytes) : Answers file ↔ Fit (lines file) := by
  rw [← throughBuffer_eq_iff, ← entered_eq]
  constructor
  · exact Answers.lineByLine
  · intro same
    exact ⟨fun key => by rw [getIp_load, same, ipOf_eq], same⟩

/-- A line of blanks that is too long for the buffer hides the one behind it. -/
theorem long_line_hides : ¬ ∀ file, Answers file := by
  intro all
  let blanks : Bytes := List.replicate 256 ' '.toUInt8
  have blank : ∀ c ∈ blanks, isSp c = true :=
    fun c member => by rw [List.eq_of_mem_replicate member]; rfl
  have two : lines (blanks ++ newline :: ascii "mbs1 10.0.0.1") =
      [blanks, ascii "mbs1 10.0.0.1"] := by
    have clean : newline ∉ blanks := fun member => by cases List.eq_of_mem_replicate member
    rw [lines, List.splitOn_append_cons_self_of_not_mem clean]
    rfl
  have nothing : throughBuffer [blanks, ascii "mbs1 10.0.0.1"] = [] := by
    have long : hostlistBufSize ≤ blanks.length := by rw [List.length_replicate]; exact le_rfl
    have sub : ∀ c ∈ buffered blanks, isSp c = true := fun c member =>
      blank c (List.mem_of_mem_take ((List.takeWhile_prefix _).subset member))
    rw [throughBuffer, (hostOf_eq_none _).mpr sub, if_pos long]
    rfl
  have hidden := (all (blanks ++ newline :: ascii "mbs1 10.0.0.1")).getIp (ascii "mbs1")
  rw [getIp_load, ipOf_eq, entered_eq, two, nothing, List.filterMap_cons,
    (hostOf_eq_none _).mpr blank] at hidden
  exact absurd hidden (by decide)

end Zn.Hostlist
