import MyStudy.SimNsim.Response

/-!
# The words of a command

`getImapCommand` takes the first words off a text: each round looks for a space, and what is behind
it is trimmed for the next one.
-/
namespace SimNsim

/-! ### Words -/

/-- A text without the blanks around it. -/
def strip (str : Bytes) : Bytes := (str.dropWhile isTrimmed).rdropWhile isTrimmed

/-- What is before the first space. -/
def firstWord (text : Bytes) : Bytes := text.takeWhile (· ≠ space)

/-- What is behind the first word, the space, and the blanks that follow. -/
def otherWords (text : Bytes) : Bytes := (text.dropWhile (· ≠ space)).dropWhile isTrimmed

theorem length_otherWords_lt (text : Bytes) (some_ : text ≠ []) :
    (otherWords text).length < text.length := by
  obtain ⟨c, rest, rfl⟩ := List.exists_cons_of_ne_nil some_
  by_cases here : c = space
  · have first : otherWords (c :: rest) = rest.dropWhile isTrimmed := by
      rw [otherWords, List.dropWhile_cons_of_neg (by simpa using here),
        List.dropWhile_cons_of_pos (by rw [here]; rfl)]
    rw [first]
    exact Nat.lt_succ_of_le (List.dropWhile_suffix isTrimmed).length_le
  · have later : otherWords (c :: rest) = otherWords rest := by
      rw [otherWords, List.dropWhile_cons_of_pos (by simpa using here)]
      rfl
    rw [later]
    exact Nat.lt_succ_of_le
      ((List.dropWhile_suffix isTrimmed).trans (List.dropWhile_suffix _)).length_le

/-- The words of a text that starts with one. -/
def words (text : Bytes) : List Bytes :=
  if text = [] then [] else firstWord text :: words (otherWords text)
termination_by text.length
decreasing_by exact length_otherWords_lt text ‹_›

/-- The word number `k` of a text, empty if there is none. -/
def word (k : Nat) (str : Bytes) : Bytes := (words (strip str)).getD k []

/-- The command is read: no text is run out of, and the fields are the first words. -/
def ReadsWords (str : Bytes) : Prop :=
  ∃ rtn, getImapCommand str = some rtn ∧ rtn.tag = word 0 str ∧
    rtn.imapCmd = cnvToUpper (word 1 str) ∧
    rtn.para1 = word 2 str

/-! ### One block -/

/-- What the blocks are given. -/
def Ready (text : Bytes) : Prop := text = [] ∨ Trimmed text

theorem trim_of_last (str : Bytes) (some_ : str ≠ [])
    (last : ∀ c, str.getLast? = some c → isTrimmed c = false) :
    Trimmed (str.dropWhile isTrimmed) ∧ trim str = some (str.dropWhile isTrimmed) := by
  have split := List.takeWhile_append_dropWhile (p := isTrimmed) (l := str)
  have left : str.dropWhile isTrimmed ≠ [] := by
    intro none_
    rw [none_, List.append_nil] at split
    have member := List.getLast_mem some_
    have blank := List.takeWhile_eq_self_iff.mp split _ member
    rw [last _ (List.getLast?_eq_some_getLast some_)] at blank
    cases blank
  have trimmed : Trimmed (str.dropWhile isTrimmed) := by
    refine ⟨left, fun c first => ?_, fun c isLast => ?_⟩
    · simpa [first] using List.head?_dropWhile_not isTrimmed str
    · apply last c
      rw [← split, List.getLast?_append_of_ne_nil _ left]
      exact isLast
  refine ⟨trimmed, ?_⟩
  have padded := trim_padded (str.takeWhile isTrimmed) _ [] trimmed
    (fun c member => List.mem_takeWhile_imp member)
    nofun
  rwa [List.append_nil, split] at padded

theorem trim_nonblank (str : Bytes) (c : UInt8) (member : c ∈ str)
    (nonblank : isTrimmed c = false) :
    Trimmed (strip str) ∧ trim str = some (strip str) := by
  -- the character that is no blank is never trimmed
  have some_ : str.dropWhile isTrimmed ≠ [] := by
    intro none_
    rw [List.dropWhile_eq_nil_iff.mp none_ c member] at nonblank
    cases nonblank
  have kept : strip str ≠ [] := by
    intro none_
    have blank := List.rdropWhile_eq_nil_iff.mp none_ _ (List.head_mem some_)
    rw [List.head_dropWhile_not isTrimmed some_] at blank
    cases blank
  refine ⟨⟨kept, fun d first => ?_, fun d isLast => ?_⟩, ?_⟩
  · obtain ⟨rest, whole⟩ := List.rdropWhile_prefix isTrimmed (str.dropWhile isTrimmed)
    have same : (str.dropWhile isTrimmed).head? = some d := by
      rw [← whole]
      change (strip str ++ rest).head? = some d
      rw [List.head?_append_of_ne_nil _ kept, first]
    simpa [same] using List.head?_dropWhile_not isTrimmed str
  · rw [List.getLast?_eq_some_getLast kept, Option.some_inj] at isLast
    rw [← isLast]
    exact Bool.eq_false_iff.mpr (List.rdropWhile_last_not isTrimmed _ kept)
  · rw [trim, if_neg (List.ne_nil_of_mem member), if_neg fun all => ?_]
    · rfl
    · rw [List.all_eq_true.mp all c member] at nonblank
      cases nonblank

/-- The last word, or none. -/
theorem takeWord_last (cmd : Bytes) (last : space ∉ cmd) : takeWord cmd = some (cmd, none) := by
  rw [takeWord, List.idxOf?_eq_none_iff.mpr last]

/-- A word with others behind it. -/
theorem takeWord_cons (cmd : Bytes) (trimmed : Trimmed cmd) (more : space ∈ cmd) :
    Trimmed (otherWords cmd) ∧ takeWord cmd = some (firstWord cmd, some (otherWords cmd)) := by
  obtain ⟨front, back, rfl, absent⟩ := List.eq_append_cons_of_mem more
  have before : ∀ c ∈ front, decide (c ≠ space) = true := by
    intro c member
    rw [decide_eq_true_eq]
    rintro rfl
    exact absent member
  have behind : (front ++ space :: back).dropWhile (· ≠ space) = space :: back := by
    rw [List.dropWhile_append_of_pos before, List.dropWhile_cons_of_neg (by simp)]
  have first : firstWord (front ++ space :: back) = front := by
    rw [firstWord, List.takeWhile_append_of_pos before, List.takeWhile_cons_of_neg (by simp),
      List.append_nil]
  obtain ⟨trimmed', trims⟩ := trim_of_last (space :: back) (List.cons_ne_nil _ _) fun c isLast =>
    trimmed.last c (by rw [List.getLast?_append_of_ne_nil _ (List.cons_ne_nil _ _)]; exact isLast)
  rw [otherWords, behind, first]
  refine ⟨trimmed', ?_⟩
  rw [takeWord, idxOf?_append_cons front back space absent]
  dsimp only
  rw [List.take_left, List.drop_left, trims]
  rfl

theorem words_nil : words [] = [] := by
  rw [words, if_pos rfl]

theorem words_cons (text : Bytes) (some_ : text ≠ []) :
    words text = firstWord text :: words (otherWords text) := by
  rw [words, if_neg some_]

theorem words_last (text : Bytes) (some_ : text ≠ []) (last : space ∉ text) :
    words text = [text] := by
  have all : ∀ c ∈ text, decide (c ≠ space) = true := by
    intro c member
    rw [decide_eq_true_eq]
    rintro rfl
    exact last member
  have nothing : otherWords text = [] := by
    rw [otherWords, List.dropWhile_eq_nil_iff.mpr all]
    rfl
  rw [words_cons text some_, nothing, words_nil, firstWord, List.takeWhile_eq_self_iff.mpr all]

/-- One word of a text and the text for the next one, of which there may be none. -/
def Takes (cmd first : Bytes) : Option Bytes → Prop
  | none => words cmd = [first] ∨ words cmd = [] ∧ first = []
  | some rest => words cmd = first :: words rest ∧ Ready rest

theorem takeWord_words (cmd : Bytes) (ready : Ready cmd) :
    ∃ first rest, takeWord cmd = some (first, rest) ∧ Takes cmd first rest := by
  by_cases more : space ∈ cmd
  · have some_ := List.ne_nil_of_mem more
    obtain ⟨trimmed, taken⟩ := takeWord_cons cmd (ready.resolve_left some_) more
    exact ⟨_, _, taken, words_cons cmd some_, .inr trimmed⟩
  · refine ⟨_, _, takeWord_last cmd more, ?_⟩
    by_cases none_ : cmd = []
    · subst none_
      exact .inr ⟨words_nil, rfl⟩
    · exact .inl (words_last cmd none_ more)

theorem Takes.first_eq {cmd first : Bytes} {rest : Option Bytes} (takes : Takes cmd first rest) :
    first = (words cmd).getD 0 [] := by
  cases rest with
  | none =>
    rcases takes with one | ⟨none_, rfl⟩
    · rw [one]
      rfl
    · rw [none_]
      rfl
  | some rest =>
    rw [takes.1]
    rfl

theorem Takes.none_eq {cmd first : Bytes} (takes : Takes cmd first none) (k : Nat) :
    [] = (words cmd).getD (k + 1) [] := by
  rcases takes with one | ⟨none_, -⟩
  · rw [one]
    rfl
  · rw [none_]
    rfl

theorem Takes.some_eq {cmd first rest : Bytes} (takes : Takes cmd first (some rest)) (k : Nat) :
    (words rest).getD k [] = (words cmd).getD (k + 1) [] := by
  rw [takes.1, List.getD_cons_succ]

theorem commandWords_words (str cmd : Bytes) (trims : trim str = some cmd) (ready : Ready cmd) :
    commandWords str =
      some ⟨(words cmd).getD 0 [], (words cmd).getD 1 [], (words cmd).getD 2 []⟩ := by
  rw [commandWords, trims, Option.bind_some]
  obtain ⟨tag, rest, taken, takes⟩ := takeWord_words cmd ready
  rw [taken, Option.bind_some, ← takes.first_eq]
  cases rest with
  | none => rw [← takes.none_eq 0, ← takes.none_eq 1]
  | some rest =>
    obtain ⟨imapCmd, rest', taken', takes'⟩ := takeWord_words rest takes.2
    dsimp only
    rw [taken', Option.bind_some, ← takes.some_eq 0, ← takes.some_eq 1, ← takes'.first_eq]
    cases rest' with
    | none => rw [← takes'.none_eq 0]
    | some rest' =>
      obtain ⟨para1, rest'', taken'', takes''⟩ := takeWord_words rest' takes'.2
      dsimp only
      rw [taken'', ← takes'.some_eq 0, ← takes''.first_eq]
      rfl

/-! ### The command -/

/-- A command that can be trimmed. -/
theorem getImapCommand_words (str : Bytes) (ready : Ready (strip str))
    (trims : trim str = some (strip str)) :
    ReadsWords str := by
  refine ⟨⟨word 0 str, cnvToUpper (word 1 str), word 2 str⟩, ?_, rfl, rfl, rfl⟩
  rw [getImapCommand, commandWords_words str _ trims ready]
  rfl

/-- A command is read unless it is made of blanks. -/
theorem readsWords_iff (str : Bytes) :
    ReadsWords str ↔ str = [] ∨ ∃ c ∈ str, isTrimmed c = false := by
  constructor
  · rintro ⟨rtn, run, -⟩
    by_contra blank
    push Not at blank
    have runsOut := (trim_eq_none_iff str).mpr
      ⟨blank.1, fun c member => Bool.eq_true_of_not_eq_false (blank.2 c member)⟩
    rw [getImapCommand, commandWords, runsOut] at run
    cases run
  · rintro (rfl | ⟨c, member, nonblank⟩)
    · exact getImapCommand_words [] (.inl rfl) rfl
    · obtain ⟨trimmed, trims⟩ := trim_nonblank str c member nonblank
      exact getImapCommand_words str (.inr trimmed) trims

/-- An empty line. -/
theorem blank_line_unread : ¬ ∀ str, ReadsWords str := by
  intro all
  obtain ⟨rtn, run, -⟩ := all (ascii "\r\n")
  cases run

end SimNsim
