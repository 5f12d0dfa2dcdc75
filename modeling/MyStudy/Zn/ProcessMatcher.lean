import MyStudy.Zn.Misc
import Mathlib.Data.List.Infix

/-!
# The process matcher

`zn_process_matcher` looks for the processes whose command lines have a text in a column. The list
it found is the list the next search starts from.
-/
namespace Zn

/-! ### `/proc` -/

structure Dirent where
  name : Bytes
  isDir : Bool

/-- `/proc`, and what reading a file gives. A directory whose name begins with a digit is that of a
process. -/
structure ProcFs where
  dir : List Dirent
  readfile : Bytes → Bytes
  numbered : ∀ entry ∈ dir, entry.isDir = true → entry.name.head?.any isDigit = true →
    ∃ pid < 2 ^ 31, entry.name = decimal pid

abbrev Pid := Int

/-- `zn_fs_proc`. -/
structure FsProc where
  pid : Pid
  cmdline : Bytes

/-- The loop of `zn_fs_proc::get_cmdline_column`, over what is left of the command line. -/
def getCmdlineColumn (column : Nat) : Bytes → Bytes
  | [] => []
  | c :: rest =>
    if column = 0 then cstr (c :: rest)
    else getCmdlineColumn (if c = 0 then column - 1 else column) rest

section Matcher

variable (fs : ProcFs) (uninit : Int)

def fsProc (pidString : Bytes) : FsProc :=
  { pid := fromStringInt uninit pidString
    cmdline := fs.readfile (ascii "/proc/" ++ pidString ++ ascii "/cmdline") }

def getPidlist : List Pid :=
  let found := fs.dir.filter fun entry => entry.isDir && entry.name.head?.any isDigit
  (found.map fun entry => fromStringInt uninit entry.name).mergeSort

def pidlistToProclist (list : List Pid) : List FsProc :=
  list.map fun pid => fsProc fs uninit (toStringInt pid)

/-- The constructor of `zn_proc_processor` with a list. -/
def procProcessor (list : List Pid) : List FsProc :=
  if list.isEmpty then pidlistToProclist fs uninit (getPidlist fs uninit)
    else pidlistToProclist fs uninit list

def commandColumn : Nat := 0

def mailidColumn : Nat := 3

/-- `_find_column`, with `_result` as it is before the call. -/
def findColumn (result : List Pid) (name : Bytes) (column : Nat) : List Pid :=
  ((procProcessor fs uninit result).filter
    fun proc => decide (name <:+: getCmdlineColumn column proc.cmdline)).map
    FsProc.pid

/-- The calls on a matcher. -/
inductive Find where
  | process (processName : Bytes)
  | mailid (mailid : Bytes)
  deriving DecidableEq, Repr

/-- `find_process`, `find_mailid`. -/
def Find.call (result : List Pid) : Find → List Pid
  | .process text => findColumn fs uninit result text commandColumn
  | .mailid text => findColumn fs uninit result text mailidColumn

/-- `get_result` after a chain of calls on a fresh matcher. -/
def getResult (chain : List Find) : List Pid := chain.foldl (Find.call fs uninit) []

end Matcher

/-! ### Columns -/

/-- The part number `k` of a text cut at NULs; a part that is not there is empty. -/
def argument (k : Nat) (cmdline : Bytes) : Bytes := (cmdline.splitOn 0).getD k []

theorem argument_cons_nul (k : Nat) (rest : Bytes) :
    argument (k + 1) (0 :: rest) = argument k rest := by
  rw [argument, List.splitOn_cons_eq_if_modifyHead, if_pos (by rfl)]
  rfl

theorem argument_cons_other (k : Nat) (c : UInt8) (rest : Bytes) (other : c ≠ 0) :
    argument (k + 1) (c :: rest) = argument (k + 1) rest := by
  obtain ⟨first, more, parts⟩ := List.exists_cons_of_ne_nil (List.splitOn_ne_nil 0 rest)
  rw [argument, argument, List.splitOn_cons_eq_if_modifyHead, if_neg (by simpa using other), parts]
  rfl

theorem argument_zero (cmdline : Bytes) : argument 0 cmdline = cstr cmdline := by
  induction cmdline with
  | nil => rfl
  | cons c rest ih =>
    rw [argument, List.splitOn_cons_eq_if_modifyHead]
    by_cases nul : c = 0
    · rw [nul]
      rfl
    · obtain ⟨first, more, parts⟩ := List.exists_cons_of_ne_nil (List.splitOn_ne_nil 0 rest)
      rw [argument, parts] at ih
      rw [if_neg (by simpa using nul), parts, cstr, List.takeWhile_cons_of_pos (by simpa using nul)]
      exact congrArg (c :: ·) ih

/-- The loop over the command line gives the part of that number. -/
theorem getCmdlineColumn_eq (column : Nat) (cmdline : Bytes) :
    getCmdlineColumn column cmdline = argument column cmdline := by
  induction cmdline generalizing column with
  | nil => cases column <;> rfl
  | cons c rest ih =>
    rw [getCmdlineColumn]
    cases column with
    | zero => rw [if_pos rfl, argument_zero]
    | succ k =>
      rw [if_neg k.succ_ne_zero, ih]
      by_cases nul : c = 0
      · rw [if_pos nul, nul, argument_cons_nul]
        rfl
      · rw [if_neg nul, argument_cons_other k c rest nul]

/-! ### What one search finds -/

/-- There is a process of this number. -/
def ProcFs.Process (fs : ProcFs) (pid : Pid) : Prop :=
  ∃ entry ∈ fs.dir, entry.isDir = true ∧ ∃ n : Nat, n < 2 ^ 31 ∧ pid = n ∧ entry.name = decimal n

def ProcFs.cmdline (fs : ProcFs) (pid : Pid) : Bytes :=
  fs.readfile (ascii "/proc/" ++ toStringInt pid ++ ascii "/cmdline")

/-- The command line of a process has the text in its column. -/
def Find.Holds (fs : ProcFs) (pid : Pid) : Find → Prop
  | .process text => text <:+: argument 0 (fs.cmdline pid)
  | .mailid text => text <:+: argument 3 (fs.cmdline pid)

theorem ProcFs.Process.isInt {fs : ProcFs} {pid : Pid} (process : fs.Process pid) : IsInt pid := by
  obtain ⟨_, _, _, n, bound, rfl, _⟩ := process
  exact ⟨by omega, by exact_mod_cast bound⟩

theorem toStringInt_natCast (n : Nat) : toStringInt n = decimal n := by
  rw [toStringInt, if_neg (by omega), Int.natAbs_natCast]

theorem head_decimal (n : Nat) : (decimal n).head?.any isDigit = true := by
  obtain ⟨d, rest, text⟩ := List.exists_cons_of_ne_nil (decimal_ne_nil n)
  rw [text]
  exact mem_decimal n d (by rw [text]; simp)

section Searching

variable {fs : ProcFs} {uninit : Int}

theorem fromStringInt_decimal {n : Nat} (bound : n < 2 ^ 31) :
    fromStringInt uninit (decimal n) = n := by
  rw [← toStringInt_natCast]
  exact fromStringInt_toStringInt uninit n ⟨by omega, by exact_mod_cast bound⟩

theorem mem_getPidlist (pid : Pid) : pid ∈ getPidlist fs uninit ↔ fs.Process pid := by
  rw [getPidlist, List.mem_mergeSort, List.mem_map]
  constructor
  · rintro ⟨entry, found, rfl⟩
    obtain ⟨member, isDir, digit⟩ : entry ∈ fs.dir ∧ entry.isDir = true ∧ _ := by
      simpa only [List.mem_filter, Bool.and_eq_true] using found
    obtain ⟨n, bound, name⟩ := fs.numbered entry member isDir digit
    exact ⟨entry, member, isDir, n, bound, by rw [name, fromStringInt_decimal bound], name⟩
  · rintro ⟨entry, member, isDir, n, bound, rfl, name⟩
    refine ⟨entry, ?_, by rw [name, fromStringInt_decimal bound]⟩
    rw [List.mem_filter, name, head_decimal, isDir]
    exact ⟨member, rfl⟩

theorem mem_findColumn {result : List Pid} (processes : ∀ pid ∈ result, fs.Process pid)
    (name : Bytes) (column : Nat) (pid : Pid) :
    pid ∈ findColumn fs uninit result name column ↔
      (if result = [] then fs.Process pid else pid ∈ result) ∧
      name <:+: argument column (fs.cmdline pid) := by
  have listed (list : List Pid) (ints : ∀ pid ∈ list, IsInt pid) :
      pid ∈ ((pidlistToProclist fs uninit list).filter
        fun proc => decide (name <:+: getCmdlineColumn column proc.cmdline)).map FsProc.pid ↔
      pid ∈ list ∧ name <:+: argument column (fs.cmdline pid) := by
    simp only [pidlistToProclist, List.mem_map, List.mem_filter, decide_eq_true_eq,
      getCmdlineColumn_eq]
    constructor
    · rintro ⟨proc, ⟨⟨pid', member, rfl⟩, has⟩, rfl⟩
      have same : (fsProc fs uninit (toStringInt pid')).pid = pid' :=
        fromStringInt_toStringInt uninit pid' (ints pid' member)
      rw [same]
      exact ⟨member, has⟩
    · rintro ⟨member, has⟩
      exact ⟨_, ⟨⟨pid, member, rfl⟩, has⟩, fromStringInt_toStringInt uninit pid (ints pid member)⟩
  rw [findColumn, procProcessor]
  by_cases none_ : result = []
  · rw [if_pos none_, if_pos (by rw [none_]; rfl),
      listed _ fun pid member => ((mem_getPidlist pid).mp member).isInt, mem_getPidlist]
  · rw [if_neg none_, if_neg (by simpa using none_),
      listed _ fun pid member => (processes pid member).isInt]

/-- One search: in the list found so far, or among all processes if that is empty. -/
theorem mem_call {result : List Pid} (processes : ∀ pid ∈ result, fs.Process pid) (find : Find)
    (pid : Pid) :
    pid ∈ find.call fs uninit result ↔
      (if result = [] then fs.Process pid else pid ∈ result) ∧ find.Holds fs pid := by
  cases find with
  | process text => exact mem_findColumn processes text 0 pid
  | mailid text => exact mem_findColumn processes text 3 pid

theorem getResult_append (chain : List Find) (find : Find) :
    getResult fs uninit (chain ++ [find]) = find.call fs uninit (getResult fs uninit chain) := by
  rw [getResult, List.foldl_append]
  rfl

/-- Whatever is found is a process. -/
theorem process_of_mem_getResult (chain : List Find) :
    ∀ pid ∈ getResult fs uninit chain, fs.Process pid := by
  induction chain using List.reverseRecOn with
  | nil => nofun
  | append_singleton chain find ih =>
    intro pid member
    rw [getResult_append, mem_call ih] at member
    have among := member.1
    split at among
    · exact among
    · exact ih pid among

end Searching

/-! ### Chains of searches -/

/-- The process meets all searches of a chain. -/
def ProcFs.Matches (fs : ProcFs) (chain : List Find) (pid : Pid) : Prop :=
  fs.Process pid ∧ ∀ find ∈ chain, find.Holds fs pid

section Chains

variable (fs : ProcFs) (uninit : Int) (chain : List Find)

/-- The searches of a chain add up, and a chain that has found nothing finds nothing later. -/
structure Narrows : Prop where
  exact : ∀ pid, pid ∈ getResult fs uninit chain ↔ fs.Matches chain pid
  stays : ∀ before more rest, chain = before ++ more ++ rest → before ≠ [] →
    getResult fs uninit before = [] → getResult fs uninit (before ++ more) = []

/-- No search starts again from all processes and finds some: there is a search if there are
processes, and where no process meets the searches so far none meets the next one alone. -/
structure NeverRestarts : Prop where
  searches : chain = [] → ∀ pid, ¬ fs.Process pid
  next : ∀ before find rest, chain = before ++ find :: rest → before ≠ [] →
    (∀ pid, ¬ fs.Matches before pid) → ∀ pid, ¬ fs.Matches [find] pid

variable {fs uninit chain}

theorem matches_snoc (before : List Find) (find : Find) (pid : Pid) :
    fs.Matches (before ++ [find]) pid ↔ fs.Matches before pid ∧ find.Holds fs pid := by
  rw [ProcFs.Matches, ProcFs.Matches, List.forall_mem_append, List.forall_mem_singleton, and_assoc]

theorem matches_singleton (find : Find) (pid : Pid) :
    fs.Matches [find] pid ↔ fs.Process pid ∧ find.Holds fs pid := by
  rw [ProcFs.Matches, List.forall_mem_singleton]

/-- After nothing was found a search is the first one again. -/
theorem mem_restart {before : List Find} (found : getResult fs uninit before = []) (find : Find)
    (pid : Pid) :
    pid ∈ getResult fs uninit (before ++ [find]) ↔ fs.Matches [find] pid := by
  rw [getResult_append, found, mem_call (by nofun), if_pos rfl, matches_singleton]

/-- While no search starts again and finds some, the searches add up. -/
theorem exact_prefix
    (quiet : ∀ before find rest, chain = before ++ find :: rest → before ≠ [] →
      (∀ pid, pid ∈ getResult fs uninit before ↔ fs.Matches before pid) →
      getResult fs uninit before = [] → ∀ pid, ¬ fs.Matches [find] pid)
    (before rest : List Find) (whole : chain = before ++ rest) (some_ : before ≠ []) (pid : Pid) :
    pid ∈ getResult fs uninit before ↔ fs.Matches before pid := by
  induction before using List.reverseRecOn generalizing rest pid with
  | nil => exact absurd rfl some_
  | append_singleton before find ih =>
    rw [List.append_assoc, List.singleton_append] at whole
    -- the first search is one of all processes
    by_cases first : before = []
    · subst first
      exact mem_restart rfl find pid
    · have exact_ := ih (find :: rest) whole first
      by_cases found : getResult fs uninit before = []
      · -- a search that starts again finds none, and none matches all either
        have none_ := quiet before find rest whole first exact_ found
        rw [mem_restart found, matches_snoc]
        constructor
        · intro alone
          exact absurd alone (none_ pid)
        · rintro ⟨earlier, -⟩
          rw [← exact_, found] at earlier
          cases earlier
      · rw [getResult_append, mem_call (process_of_mem_getResult before), if_neg found, exact_,
          matches_snoc]

theorem Narrows.quiet (narrows : Narrows fs uninit chain) {before rest : List Find} {find : Find}
    (whole : chain = before ++ find :: rest) (some_ : before ≠ [])
    (found : getResult fs uninit before = []) (pid : Pid) : ¬ fs.Matches [find] pid := by
  have later := narrows.stays before [find] rest (by rw [whole, List.append_assoc]; rfl) some_ found
  rw [← mem_restart found find pid, later]
  exact List.not_mem_nil

variable (fs uninit chain) in
/-- The searches of a chain add up exactly when none starts again from all processes and finds
some. -/
theorem narrows_iff : Narrows fs uninit chain ↔ NeverRestarts fs chain := by
  constructor
  · intro narrows
    refine ⟨?_, ?_⟩
    · rintro rfl pid process
      exact absurd ((narrows.exact pid).mpr ⟨process, nofun⟩) List.not_mem_nil
    · intro before find rest whole some_ none_ pid
      have exact_ := exact_prefix (fun _ _ _ whole some_ _ found => narrows.quiet whole some_ found)
        before (find :: rest) whole some_
      have found : getResult fs uninit before = [] :=
        List.eq_nil_iff_forall_not_mem.mpr fun pid member => none_ pid ((exact_ pid).mp member)
      exact narrows.quiet whole some_ found pid
  · intro never
    -- no search starts again and finds some, so every prefix adds up
    have exact_ : ∀ before rest, chain = before ++ rest → before ≠ [] →
        ∀ pid, pid ∈ getResult fs uninit before ↔ fs.Matches before pid :=
      exact_prefix fun before find rest whole some_ exact_ found =>
        never.next before find rest whole some_ fun pid earlier => by
          rw [← exact_, found] at earlier
          cases earlier
    refine ⟨?_, ?_⟩
    · intro pid
      by_cases some_ : chain = []
      · subst some_
        constructor
        · nofun
        · rintro ⟨process, -⟩
          exact absurd process (never.searches rfl pid)
      · exact exact_ chain [] (List.append_nil chain).symm some_ pid
    · intro before more rest whole some_ found
      have earlier := exact_ before (more ++ rest) (by rw [whole, List.append_assoc]) some_
      have later := exact_ (before ++ more) rest whole (by simp [some_])
      refine List.eq_nil_iff_forall_not_mem.mpr fun pid member => ?_
      obtain ⟨process, all⟩ := (later pid).mp member
      have matched :=
        (earlier pid).mpr ⟨process, fun find member => all find (List.mem_append_left _ member)⟩
      rw [found] at matched
      cases matched

end Chains

/-- One process, of this command line. -/
def oneProcess (cmdline : Bytes) : ProcFs where
  dir := [⟨decimal 100, true⟩]
  readfile _ := cmdline
  numbered entry member _ _ := ⟨100, by decide, by rw [List.mem_singleton.mp member]⟩

/-- No process has the name, and the next search finds one by its mail id all the same. -/
theorem restarts : ¬ ∀ fs uninit chain, Narrows fs uninit chain := by
  intro all
  let cmdline : Bytes := ascii "imap" ++ 0 :: ascii "-u" ++ 0 :: ascii "user" ++ 0 :: ascii "m1"
  have process : (oneProcess cmdline).Process 100 :=
    ⟨⟨decimal 100, true⟩, by rw [oneProcess]; simp, rfl, 100,
    by decide, rfl, rfl⟩
  have unnamed : ¬ ascii "pop3" <:+: argument 0 cmdline := by decide
  have found : getResult (oneProcess cmdline) 0 [.process (ascii "pop3")] = [] := by
    refine List.eq_nil_iff_forall_not_mem.mpr fun pid member => unnamed ?_
    rw [getResult, List.foldl_cons, List.foldl_nil, mem_call (by nofun)] at member
    exact member.2
  have narrows := all (oneProcess cmdline) 0 ([.process (ascii "pop3")] ++ [.mailid (ascii "m1")])
  refine narrows.quiet rfl (List.cons_ne_nil _ _) found 100 ?_
  rw [matches_singleton]
  exact ⟨process, show ascii "m1" <:+: argument 3 cmdline by decide⟩

end Zn
