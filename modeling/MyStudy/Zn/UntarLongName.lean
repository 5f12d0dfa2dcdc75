import MyStudy.Zn.UntarRename
import MyStudy.Zn.UntarSkipped

/-!
# Long names in the Zimbra stream

`_set_tar_info` gives the name to the processor whatever the header is one of. At the header of a
long name it is still empty, the processor makes `.` of it, and the long name is put behind the dot.
-/
namespace Zn

abbrev dot : UInt8 := '.'.toUInt8

/-- The name the processor is given for a file, by whether a record of a long name came before
it. -/
def told (long : Bool) (name : Bytes) : Bytes := if long then dot :: name else name

/-- Made-up names with a file name behind them are the same path only for the same numbers. -/
theorem join_numbered_iff (prefix_ base : Bytes) (numbers numbers' : List Nat)
    (length : numbers.length = numbers'.length) :
    join (numbers.map (fun i => prefix_ ++ decimal i) ++ [base]) slash =
        join (numbers'.map (fun i => prefix_ ++ decimal i) ++ [base]) slash ↔
        numbers = numbers' := by
  refine ⟨fun same => ?_, fun same => by rw [same]⟩
  have plain (i : Nat) : slash ∉ decimal i := fun member => by
    have digit := mem_decimal i slash member
    revert digit
    decide
  have cut (i : Nat) (rest : List Nat) :
      join ((i :: rest).map (fun i => prefix_ ++ decimal i) ++ [base]) slash =
        prefix_ ++ (decimal i ++ slash ::
          join (rest.map (fun i => prefix_ ++ decimal i) ++ [base]) slash) := by
    obtain ⟨piece, more, pieces⟩ := List.exists_cons_of_ne_nil
      (show rest.map (fun i => prefix_ ++ decimal i) ++ [base] ≠ [] by simp)
    rw [List.map_cons, List.cons_append, pieces, join, join, List.intercalate_cons_cons]
    simp
  induction numbers generalizing numbers' with
  | nil => exact (List.eq_nil_of_length_eq_zero length.symm).symm
  | cons i numbers ih =>
    cases numbers' with
    | nil => cases length
    | cons j numbers' =>
      rw [cut, cut] at same
      have tails := List.append_cancel_left same
      -- the first slash ends the number
      have ends := congrArg (List.idxOf? slash) tails
      rw [idxOf?_append_cons _ _ slash (plain i), idxOf?_append_cons _ _ slash (plain j)] at ends
      obtain ⟨number, rest⟩ := List.append_inj tails (Option.some.inj ends)
      rw [decimal_injective number, ih numbers' (Nat.succ.inj length) (List.cons.inj rest).2]

theorem join_snoc (names : List Bytes) (base : Bytes) (some_ : names ≠ []) :
    join (names ++ [base]) slash = join names slash ++ slash :: base := by
  induction names with
  | nil => exact absurd rfl some_
  | cons name names ih =>
    cases names with
    | nil => simp [join]
    | cons other names =>
      have rest := ih (by simp)
      rw [join, join] at rest ⊢
      rw [List.cons_append, List.cons_append, List.intercalate_cons_cons, ← List.cons_append, rest,
        List.intercalate_cons_cons]
      simp

theorem dirname_join (names : List Bytes) (base : Bytes) (some_ : names ≠ [])
    (plain : slash ∉ base) :
    dirname (join (names ++ [base]) slash) = join names slash := by
  rw [join_snoc names base some_, dirname_append _ _ plain]

/-! ### Components of a name -/

namespace TarFilenameProcessor

/-- What `_process_filename` makes of the last component. -/
def withoutSubject (fname : Bytes) : Bytes :=
  if (fname.head?.map isDigit).getD false then
    match fname.idxOf? '-'.toUInt8, fname.idxOf? '.'.toUInt8 with
    | some start, some stop =>
      if start < stop then fname.take start ++ fname.drop stop else fname
    | _, _ => fname
  else fname

theorem processFilename_eq (name : Bytes) :
    processFilename name = dirname name ++ slash :: withoutSubject (basename name) := rfl

/-- The last component keeps some of its characters, and gets no others. -/
theorem withoutSubject_spec (fname : Bytes) :
    (∀ c ∈ withoutSubject fname, c ∈ fname) ∧ (withoutSubject fname).length ≤ fname.length ∧
      (fname ≠ [] → withoutSubject fname ≠ []) := by
  rw [withoutSubject]
  split
  · split
    next start stop _ found =>
      split
      next before =>
        have inside : stop < fname.length := (List.idxOf?_eq_some_iff.mp found).1
        refine ⟨fun c member => ?_, ?_, fun _ none_ => ?_⟩
        · exact (List.mem_append.mp member).elim List.mem_of_mem_take List.mem_of_mem_drop
        · rw [List.length_append, List.length_take, List.length_drop]
          omega
        · have length := congrArg List.length none_
          rw [List.length_append, List.length_drop, List.length_nil] at length
          omega
      · exact ⟨fun _ => id, Nat.le_refl _, id⟩
    · exact ⟨fun _ => id, Nat.le_refl _, id⟩
  · exact ⟨fun _ => id, Nat.le_refl _, id⟩

theorem withoutSubject_dot (fname : Bytes) : withoutSubject (dot :: fname) = dot :: fname := rfl

/-- A path is cut at its slashes, and a last component that is empty is none. -/
theorem split_slash (front base : Bytes) (plain : slash ∉ base) :
    split (front ++ slash :: base) slash =
      if base = [] then front.splitOn slash else front.splitOn slash ++ [base] := by
  have parts : (front ++ slash :: base).splitOn slash = front.splitOn slash ++ [base] := by
    have whole : front ++ slash :: base = [slash].intercalate (front.splitOn slash ++ [base]) := by
      rw [← join, join_snoc _ _ (List.splitOn_ne_nil slash front), join, List.intercalate_splitOn]
    rw [whole, List.splitOn_intercalate slash ?_ (by simp)]
    intro piece member
    rcases List.mem_append.mp member with inside | last
    · exact fun among => (mem_splitOn_chars slash slash front piece inside among).2 rfl
    · rw [List.mem_singleton.mp last]
      exact plain
  rw [split, parts]
  simp

theorem basename_append (dir base : Bytes) (plain : slash ∉ base) :
    basename (dir ++ slash :: base) = base := by
  rw [basename, findLastOf_append slash dir base plain]
  simp

theorem slash_notMem_basename (name : Bytes) : slash ∉ basename name := by
  by_cases slashed : slash ∈ name
  · obtain ⟨front, back, rfl, absent⟩ := exists_last slash name slashed
    rw [basename_append front back absent]
    exact absent
  · rw [basename, findLastOf_eq_none slash name slashed]
    exact slashed

/-- The components of a name: those of its directory, and the last one. -/
theorem split_processFilename (name : Bytes) (some_ : basename name ≠ [])
    (plain : slash ∉ basename name) :
    split (processFilename name) slash =
      (dirname name).splitOn slash ++ [withoutSubject (basename name)] := by
  obtain ⟨among, -, stays⟩ := withoutSubject_spec (basename name)
  rw [processFilename_eq, split_slash _ _ fun member => plain (among slash member),
    if_neg (stays some_)]

theorem split_processFilename_ne_nil (name : Bytes) : split (processFilename name) slash ≠ [] := by
  obtain ⟨among, -, -⟩ := withoutSubject_spec (basename name)
  rw [processFilename_eq,
    split_slash _ _ fun member => slash_notMem_basename name (among slash member)]
  split
  · exact List.splitOn_ne_nil slash _
  · simp

/-- A dot in front of a path is one in front of its first component. -/
theorem told_path (name : Bytes) (slashed : slash ∈ name) :
    dirname (dot :: name) = dot :: dirname name ∧ basename (dot :: name) = basename name := by
  obtain ⟨front, back, rfl, absent⟩ := exists_last slash name slashed
  rw [dirname_append front back absent, basename_append front back absent, ← List.cons_append]
  exact ⟨dirname_append _ back absent, basename_append _ back absent⟩

theorem told_plain (name : Bytes) (plain : slash ∉ name) :
    dirname name = [dot] ∧ basename name = name ∧ dirname (dot :: name) = [dot] ∧
      basename (dot :: name) = dot :: name := by
  have plain' : slash ∉ dot :: name := by
    rw [List.mem_cons, not_or]
    exact ⟨by decide, plain⟩
  rw [dirname, dirname, basename, basename, findLastOf_eq_none slash name plain,
    findLastOf_eq_none slash _ plain']
  exact ⟨rfl, rfl, rfl, rfl⟩

theorem splitOn_dot (path : Bytes) :
    (dot :: path).splitOn slash = (path.splitOn slash).modifyHead (dot :: ·) := by
  rw [List.splitOn_cons_eq_if_modifyHead, if_neg (by decide)]

section Process

open DirectoryAllocator FreshNaming

variable {prefix_ : Bytes} {n : FreshNaming Bytes} {p : TarFilenameProcessor}
  (rep : Represents prefix_ n p.da)

include rep

/-- A processed name by the numbers of its components. -/
theorem process_requests (name : Bytes) (dirs : List Bytes) (last : Bytes)
    (cut : split (processFilename name) slash = dirs ++ [last]) :
    Represents prefix_ (n.requests dirs).1 (p.process name).1.da ∧
      (p.process name).2 =
        join ((n.requests dirs).2.map (fun i => prefix_ ++ decimal i) ++ [last]) slash := by
  obtain ⟨next, names⟩ := renameFolders_requests rep dirs
  rw [process, processDirectory]
  simp only [cut, List.dropLast_concat, List.getLast?_append, List.getLast?_singleton,
    Option.some_or, Option.toList_some, names]
  exact ⟨next, trivial⟩

end Process

/-- The first component of a name, and this one with a dot in front, are new to the renamer, and do
not come again further down. -/
def FreshTop (da : DirectoryAllocator) (name : Bytes) : Prop :=
  slash ∈ name ∧ ∃ top dirs last, split (processFilename name) slash = top :: (dirs ++ [last]) ∧
    ∀ dir, dir = top ∨ dir = dot :: top → da.directoryMap.lookup dir = none ∧ dir ∉ dirs

section Told

open DirectoryAllocator FreshNaming

variable {prefix_ : Bytes} {n : FreshNaming Bytes} {p : TarFilenameProcessor}
  (rep : Represents prefix_ n p.da)

theorem split_told (name : Bytes) (slashed : slash ∈ name) :
    split (processFilename (dot :: name)) slash =
      (split (processFilename name) slash).modifyHead (dot :: ·) := by
  obtain ⟨dir, base⟩ := told_path name slashed
  obtain ⟨among, -, -⟩ := withoutSubject_spec (basename name)
  have plain : slash ∉ withoutSubject (basename name) := fun member =>
    slash_notMem_basename name (among slash member)
  obtain ⟨first, rest, parts⟩ :=
    List.exists_cons_of_ne_nil (List.splitOn_ne_nil slash (dirname name))
  rw [processFilename_eq, processFilename_eq, dir, base, split_slash _ _ plain,
    split_slash _ _ plain, splitOn_dot, parts]
  split <;> rfl

include rep

/-- A name is processed to the same path with a dot in front only in a directory that is new. -/
theorem process_told_iff (name : Bytes) (some_ : name ≠ []) :
    (p.process name).2 = (p.process (dot :: name)).2 ↔ FreshTop p.da name := by
  have known (dir : Bytes) : p.da.directoryMap.lookup dir = none ↔ n.index dir = none := by
    rw [rep.2.2, Option.map_eq_none_iff]
  by_cases slashed : slash ∈ name
  · have cut' := split_told name slashed
    obtain ⟨first, rest, cut⟩ := List.exists_cons_of_ne_nil (split_processFilename_ne_nil name)
    rw [cut, List.modifyHead_cons] at cut'
    -- the two names differ in their first component and nowhere else
    have other : first ≠ dot :: first := fun same => by
      have length := congrArg List.length same
      rw [List.length_cons] at length
      omega
    rcases List.eq_nil_or_concat' rest with none_ | ⟨dirs, last, rfl⟩
    · -- there is but one component, the last one
      rw [none_] at cut cut'
      have short := (process_requests rep name [] first cut).2
      have long := (process_requests rep (dot :: name) [] (dot :: first) cut').2
      refine iff_of_false ?_ ?_
      · rw [short, long]
        simp [FreshNaming.requests, join, other]
      · rintro ⟨-, top, dirs, last, parts, -⟩
        rw [cut] at parts
        simp at parts
    · have short := (process_requests rep name (first :: dirs) last cut).2
      have long := (process_requests rep (dot :: name) ((dot :: first) :: dirs) last cut').2
      rw [short, long, join_numbered_iff _ _ _ _ (by simp [length_requests]),
        n.requests_cons_eq_iff first (dot :: first) dirs other]
      constructor
      · rintro ⟨top, dotted⟩
        refine ⟨slashed, first, dirs, last, cut, ?_⟩
        rintro dir (rfl | rfl)
        · exact ⟨(known _).mpr top.1, top.2⟩
        · exact ⟨(known _).mpr dotted.1, dotted.2⟩
      · rintro ⟨-, top, dirs', last', parts, fresh⟩
        rw [cut] at parts
        obtain ⟨rfl, inner⟩ := List.cons.inj parts
        obtain ⟨rfl, -⟩ := List.append_inj' inner rfl
        obtain ⟨top, notTop⟩ := fresh first (.inl rfl)
        obtain ⟨dotted, notDotted⟩ := fresh (dot :: first) (.inr rfl)
        exact ⟨⟨(known _).mp top, notTop⟩, (known _).mp dotted, notDotted⟩
  · -- without a directory it is the file that gets another name
    obtain ⟨dir, base, dir', base'⟩ := told_plain name slashed
    have cut := split_processFilename name (by rw [base]; exact some_) (by rw [base]; exact slashed)
    have cut' := split_processFilename (dot :: name) (by rw [base']; simp) (slash_notMem_basename _)
    rw [dir, base] at cut
    rw [dir', base', withoutSubject_dot] at cut'
    have short := (process_requests rep name _ _ cut).2
    have long := (process_requests rep (dot :: name) _ _ cut').2
    have requested : (n.requests ([dot].splitOn slash)).2 ≠ [] := by
      intro none_
      have length := n.length_requests ([dot].splitOn slash)
      rw [none_] at length
      cases length
    refine iff_of_false (fun same => ?_) fun fresh => slashed fresh.1
    rw [short, long, join_snoc _ _ (by simpa using requested),
      join_snoc _ _ (by simpa using requested)] at same
    have file := congrArg List.length (List.cons.inj (List.append_cancel_left same)).2
    have bound := (withoutSubject_spec name).2.1
    rw [List.length_cons] at file
    omega

omit rep in
/-- The directory the renamer is asked for, by whether the name is a long one. -/
def toldDirs (long : Bool) (name : Bytes) : List Bytes :=
  if long = true ∧ slash ∈ name then ((dirname name).splitOn slash).modifyHead (dot :: ·)
  else (dirname name).splitOn slash

omit rep in
theorem split_told_file (long : Bool) (name : Bytes) (file : basename name ≠ []) :
    ∃ last, slash ∉ last ∧ split (processFilename (told long name)) slash =
      toldDirs long name ++ [last] := by
  have clean (name : Bytes) : slash ∉ withoutSubject (basename name) := fun member =>
    slash_notMem_basename name ((withoutSubject_spec (basename name)).1 slash member)
  cases long with
  | false =>
    exact ⟨_, clean name, by
      rw [told, if_neg Bool.false_ne_true,
        split_processFilename name file (slash_notMem_basename name),
        toldDirs, if_neg fun both => Bool.false_ne_true both.1]⟩
  | true =>
    rw [told, if_pos rfl]
    by_cases slashed : slash ∈ name
    · obtain ⟨dir, base⟩ := told_path name slashed
      refine ⟨_, clean (dot :: name), ?_⟩
      rw [split_processFilename _ (by rw [base]; exact file) (slash_notMem_basename _), dir,
        splitOn_dot, toldDirs, if_pos ⟨rfl, slashed⟩]
    · obtain ⟨dir, base, dir', base'⟩ := told_plain name slashed
      refine ⟨_, clean (dot :: name), ?_⟩
      rw [split_processFilename _ (by rw [base']; simp) (slash_notMem_basename _), dir', toldDirs,
        if_neg fun both => slashed both.2, dir]

omit rep in
theorem toldDirs_eq_iff (a b : Bytes) (longA longB : Bool) (same : dirname a = dirname b) :
    toldDirs longA a = toldDirs longB b ↔
      ((longA = true ∧ slash ∈ a) ↔ (longB = true ∧ slash ∈ b)) := by
  obtain ⟨first, rest, parts⟩ := List.exists_cons_of_ne_nil (List.splitOn_ne_nil slash (dirname b))
  have other : first ≠ dot :: first := fun same => by
    have length := congrArg List.length same
    rw [List.length_cons] at length
    omega
  rw [toldDirs, toldDirs, same, parts, List.modifyHead_cons]
  split
  next dotted =>
    split
    next dotted' => exact iff_of_true rfl (iff_of_true dotted dotted')
    next plain' =>
      exact iff_of_false (fun equal => other (List.cons.inj equal).1.symm)
        fun both => plain' (both.mp dotted)
  next plain =>
    split
    next dotted' =>
      exact iff_of_false (fun equal => other (List.cons.inj equal).1)
        fun both => plain (both.mpr dotted')
    next plain' => exact iff_of_true rfl (iff_of_false plain plain')

omit rep in
theorem length_toldDirs (long : Bool) (name : Bytes) :
    (toldDirs long name).length = ((dirname name).splitOn slash).length := by
  rw [toldDirs]
  split
  · rw [List.length_modifyHead]
  · rfl

/-- Two files of one directory are written to one directory if both have a dot in front of it, or
neither has. -/
theorem process_directory_iff (a b : Bytes) (longA longB : Bool) (fileA : basename a ≠ [])
    (fileB : basename b ≠ []) (same : dirname a = dirname b) {m : FreshNaming Bytes}
    {q : TarFilenameProcessor} (rep' : Represents prefix_ m q.da)
    (upto : (n.requests (toldDirs longA a)).1 ≤ m) :
    dirname (p.process (told longA a)).2 = dirname (q.process (told longB b)).2 ↔
      ((longA = true ∧ slash ∈ a) ↔ (longB = true ∧ slash ∈ b)) := by
  obtain ⟨lastA, plainA, cutA⟩ := split_told_file longA a fileA
  obtain ⟨lastB, plainB, cutB⟩ := split_told_file longB b fileB
  have some_ (k : FreshNaming Bytes) (long : Bool) (name : Bytes) :
      (k.requests (toldDirs long name)).2.map (fun i => prefix_ ++ decimal i) ≠ [] := by
    rw [ne_eq, List.map_eq_nil_iff, ← List.length_eq_zero_iff, k.length_requests, length_toldDirs,
      List.length_eq_zero_iff]
    exact List.splitOn_ne_nil slash _
  have length : (n.requests (toldDirs longA a)).2.length =
      (m.requests (toldDirs longB b)).2.length := by
    rw [n.length_requests, m.length_requests, length_toldDirs, length_toldDirs, same]
  -- the numbers of both are those of the naming after the second name
  have givenA := (n.requests_spec (toldDirs longA a)).2.mono
    (le_trans upto (m.requests_spec (toldDirs longB b)).1)
  have givenB := (m.requests_spec (toldDirs longB b)).2
  rw [(process_requests rep _ _ _ cutA).2, (process_requests rep' _ _ _ cutB).2,
    dirname_join _ _ (some_ n longA a) plainA, dirname_join _ _ (some_ m longB b) plainB,
    ← toldDirs_eq_iff a b longA longB same, givenA.eq_iff givenB,
    ← join_numbered_iff prefix_ [] _ _ length, join_snoc _ _ (some_ n longA a),
    join_snoc _ _ (some_ m longB b), List.append_left_inj]

end Told

end TarFilenameProcessor

/-! ### The stream -/

namespace ZimbraUntarStream

open UntarStream DirectoryAllocator

structure IsFileHeader (h : Bytes) : Prop where
  magic : (TarHeader.magic h).take 5 = tmagic
  typeflag : TarHeader.typeflag h = regtype

/-- The blocks before the content of a file: a header with the name in it, or one behind the record
of a long name. -/
inductive NameBlocks (name : Bytes) : Bool → List Bytes → Prop
  | short (h : Bytes) (file : IsFileHeader h) (fits : name.length < 100)
      (named : TarHeader.name h = name) :
    NameBlocks name false [h]
  | long (record : LongName) (h : Bytes) (file : IsFileHeader h) (named : record.name = name) :
    NameBlocks name true (record.header :: (record.blocks ++ [h]))

/-- The names `on_write` is called with. -/
def writtenNames (s : ZimbraUntarStream) (blocks : List Bytes) : List Bytes :=
  ((machine setTarInfo).run s blocks).2.map fun call => call.info.name

/-- The stream waits for the next entry, whatever names it has processed before. -/
structure Waiting (prefix_ : Bytes) (s : ZimbraUntarStream) : Prop where
  ready : s.status = .header
  open_ : s.eof = false
  renamer : ∃ names : List Bytes, s.derived =
    names.foldl (fun p name => (p.process name).1) (.init prefix_)

/-- The empty name becomes a dot, and no directory is asked for. -/
theorem process_nil (p : TarFilenameProcessor) : p.process [] = (p, [dot]) := by
  have cut : split (TarFilenameProcessor.processFilename []) slash = [[dot]] := by decide
  rw [TarFilenameProcessor.process, TarFilenameProcessor.processDirectory, cut]
  rfl

theorem setTarInfo_file (s : ZimbraUntarStream) (h : Bytes) (file : IsFileHeader h) :
    ∃ info : TarInfo, info.name = (s.derived.process (s.nameFor h)).2 ∧
      (setTarInfo s h).1 =
        { s with
          status := .content
          tarInfo := info
          derived := (s.derived.process (s.nameFor h)).1 } := by
  simp only [setTarInfo, UntarStream.setTarInfo, file.magic, file.typeflag, ne_eq,
    not_true_eq_false, if_false, if_true, nameFor]
  exact ⟨_, rfl, rfl⟩

theorem setTarInfo_longName (s : ZimbraUntarStream) (record : LongName) :
    ∃ info : TarInfo, info.name = [dot] ∧ info.bytesLeft = headerSize record.header ∧
      (setTarInfo s record.header).1 = { s with status := .longname, tarInfo := info } := by
  have other : lftype ≠ regtype := by decide
  -- the unifier would compute with the size
  generalize announced : headerSize record.header = size
  rw [headerSize] at announced
  refine ⟨{ s.tarInfo with name := [dot], size := size, bytesLeft := size }, rfl, rfl, ?_⟩
  simp only [setTarInfo, UntarStream.setTarInfo, record.header_magic, record.header_typeflag, other,
    ne_eq, not_true_eq_false, if_false, if_true, process_nil, announced]

theorem run_single (s : ZimbraUntarStream) (b : Bytes) (open_ : s.eof = false) :
    (machine setTarInfo).run s [b] = feedBlock setTarInfo s b := by
  rw [run_block _ s b [] open_, BlockMachine.run_nil, List.append_nil]

/-- A file is told to the processor by its name, or by its long name with the dot. -/
theorem run_nameBlocks (s : ZimbraUntarStream) (ready : s.status = .header)
    (open_ : s.eof = false) (name : Bytes) (long : Bool) (blocks : List Bytes)
    (named : NameBlocks name long blocks) :
    ∃ info : TarInfo, info.name = (s.derived.process (told long name)).2 ∧
      (machine setTarInfo).run s blocks =
        ({ s with
          status := .content, tarInfo := info, derived :=
          (s.derived.process (told long name)).1 }, []) := by
  cases named with
  | short h file fits named =>
    obtain ⟨info, name', set⟩ := setTarInfo_file s h file
    have inField : s.nameFor h = name := by rw [nameFor, if_pos ready, named]
    rw [inField] at name' set
    refine ⟨info, name', ?_⟩
    rw [run_single s h open_, feedBlock_header setTarInfo s h (.inl ready) file.magic, set]
    rfl
  -- the block of the long name, the blocks with its text, and the header of the file
  | long record h file named =>
    obtain ⟨info, dotted, left, set⟩ := setTarInfo_longName s record
    have first := feedBlock_header setTarInfo s record.header (.inl ready) record.header_magic
    rw [set] at first
    obtain ⟨info', joined, names⟩ := run_joinName setTarInfo
      ({ s with status := .longname, tarInfo := info } : ZimbraUntarStream) record.blocks
      record.blocks_length record.nonempty rfl open_ (by rw [left]; exact record.announced)
    obtain ⟨info'', name', set'⟩ := setTarInfo_file
      ({ s with status := .longnameHeader, tarInfo := info' } : ZimbraUntarStream) h file
    have whole : info'.name = told true name := by
      rw [joined, dotted, ← named]
      rfl
    have last := run_single
      ({ s with status := .longnameHeader, tarInfo := info' } : ZimbraUntarStream) h open_
    rw [feedBlock_header setTarInfo _ h (.inr rfl) file.magic, set'] at last
    simp only [nameFor, reduceCtorEq, if_false, whole] at name' last
    refine ⟨info'', name', ?_⟩
    rw [run_block _ s _ _ open_, first]
    simp only [(machine setTarInfo).run_append, names, last, List.append_nil]

/-- Its content is written under the processed name. -/
theorem writtenNames_file (s : ZimbraUntarStream) (ready : s.status = .header)
    (open_ : s.eof = false) (name : Bytes) (long : Bool) (blocks : List Bytes)
    (named : NameBlocks name long blocks) (b : Bytes) :
    writtenNames s (blocks ++ [b]) = [(s.derived.process (told long name)).2] := by
  obtain ⟨info, name', run⟩ := run_nameBlocks s ready open_ name long blocks named
  have content := run_single ({ s with
    status := .content, tarInfo := info, derived := (s.derived.process (told long name)).1 } :
      ZimbraUntarStream) b open_
  rw [writtenNames, (machine setTarInfo).run_append, run]
  simp only [content, List.nil_append, ← name', feedBlock]
  split <;> rfl

/-! ### The naming along a run -/

theorem process_represents {prefix_ : Bytes} {n : FreshNaming Bytes} {p : TarFilenameProcessor}
    (rep : Represents prefix_ n p.da) (name : Bytes) :
    ∃ m, n ≤ m ∧ Represents prefix_ m (p.process name).1.da := by
  obtain ⟨m, up, next, -⟩ := renameFolders_spec prefix_ n p.da rep
    (split (TarFilenameProcessor.processFilename name) slash).dropLast
  exact ⟨m, up, next⟩

theorem Waiting.represents {prefix_ : Bytes} {s : ZimbraUntarStream} (waiting : Waiting prefix_ s) :
    ∃ n, Represents prefix_ n s.derived.da := by
  obtain ⟨names, after⟩ := waiting.renamer
  have run (p : TarFilenameProcessor) (n : FreshNaming Bytes) (rep : Represents prefix_ n p.da) :
      ∃ m, Represents prefix_ m (names.foldl (fun p name => (p.process name).1) p).da := by
    clear after
    induction names generalizing p n with
    | nil => exact ⟨n, rep⟩
    | cons name names ih =>
      obtain ⟨m, -, next⟩ := process_represents rep name
      exact ih _ m next
  rw [after]
  exact run _ _ (init_represents prefix_)

/-- One block moves the naming up. -/
theorem feedBlock_represents {prefix_ : Bytes} (n : FreshNaming Bytes) (s : ZimbraUntarStream)
    (b : Bytes) (rep : Represents prefix_ n s.derived.da) :
    ∃ m, n ≤ m ∧ Represents prefix_ m (feedBlock setTarInfo s b).1.derived.da := by
  have header : ∃ m, n ≤ m ∧ Represents prefix_ m (setTarInfo s b).1.derived.da := by
    have base := (setTarInfo_base s b).1
    rw [← base] at rep
    simp only [setTarInfo]
    split
    · exact process_represents rep _
    · exact ⟨n, le_refl n, rep⟩
  rw [feedBlock]
  split
  · split
    · exact ⟨n, le_refl n, rep⟩
    · exact header
  · split
    · exact ⟨n, le_refl n, rep⟩
    · exact header
  · split <;> exact ⟨n, le_refl n, rep⟩
  · split <;> exact ⟨n, le_refl n, rep⟩

theorem run_represents {prefix_ : Bytes} (n : FreshNaming Bytes) (s : ZimbraUntarStream)
    (blocks : List Bytes) (sizes : ∀ b ∈ blocks, b.length = tarBlockSize)
    (rep : Represents prefix_ n s.derived.da) :
    ∃ m, n ≤ m ∧ Represents prefix_ m ((machine setTarInfo).run s blocks).1.derived.da := by
  obtain ⟨m, up, next, -⟩ := (machine setTarInfo).run_simulated
    (fun n (s : ZimbraUntarStream) => Represents prefix_ n s.derived.da) (fun _ _ => True)
    (fun _ _ _ _ => id) (fun n s b _ _ rep => by
      obtain ⟨m, up, next⟩ := feedBlock_represents n s b rep
      exact ⟨m, up, next, fun _ _ => trivial⟩) n s blocks sizes rep
  exact ⟨m, up, next⟩

/-! ### Both ways of a name -/

section Ways

variable {prefix_ : Bytes} {s : ZimbraUntarStream} (waiting : Waiting prefix_ s)

include waiting

theorem writtenNames_way_iff (name : Bytes) (some_ : name ≠ []) (short long : List Bytes)
    (b b' : Bytes) (byHeader : NameBlocks name false short) (byRecord : NameBlocks name true long) :
    writtenNames s (short ++ [b]) = writtenNames s (long ++ [b']) ↔
      TarFilenameProcessor.FreshTop s.derived.da name := by
  obtain ⟨n, rep⟩ := waiting.represents
  rw [writtenNames_file s waiting.ready waiting.open_ name false short byHeader,
    writtenNames_file s waiting.ready waiting.open_ name true long byRecord, List.singleton_inj]
  exact TarFilenameProcessor.process_told_iff rep name some_

theorem writtenNames_directory_iff (a b : Bytes) (longA longB : Bool)
    (blocksA blocksB between : List Bytes) (x y : Bytes) (namedA : NameBlocks a longA blocksA)
    (namedB : NameBlocks b longB blocksB) (fileA : basename a ≠ []) (fileB : basename b ≠ [])
    (same : dirname a = dirname b) (sizes : ∀ block ∈ between, block.length = tarBlockSize)
    (ready : ((machine setTarInfo).run s (blocksA ++ between)).1.status = .header)
    (open_ : ((machine setTarInfo).run s (blocksA ++ between)).1.eof = false) :
    (writtenNames s (blocksA ++ [x])).map dirname =
        (writtenNames ((machine setTarInfo).run s (blocksA ++ between)).1 (blocksB ++ [y])).map
        dirname ↔
      ((longA = true ∧ slash ∈ a) ↔ (longB = true ∧ slash ∈ b)) := by
  obtain ⟨n, rep⟩ := waiting.represents
  obtain ⟨info, -, first⟩ := run_nameBlocks s waiting.ready waiting.open_ a longA blocksA namedA
  obtain ⟨last, -, cut⟩ := TarFilenameProcessor.split_told_file longA a fileA
  have next := (TarFilenameProcessor.process_requests rep _ _ _ cut).1
  -- from the first file on the naming only grows
  have grown : ∃ m, (n.requests (TarFilenameProcessor.toldDirs longA a)).1 ≤ m ∧
      Represents prefix_ m ((machine setTarInfo).run s (blocksA ++ between)).1.derived.da := by
    rw [(machine setTarInfo).run_append, first]
    exact run_represents _ _ between sizes next
  obtain ⟨m, upto, rep'⟩ := grown
  rw [writtenNames_file s waiting.ready waiting.open_ a longA blocksA namedA,
    writtenNames_file _ ready open_ b longB blocksB namedB, List.map_singleton, List.map_singleton,
    List.singleton_inj]
  exact TarFilenameProcessor.process_directory_iff rep a b longA longB fileA fileB same rep' upto

/-- A name leads to the same path on both ways only if its first directory is new to the renamer
with the dot and without it, and two files of a directory come into one directory when both have a
long name, or neither has, or they are in none. -/
theorem longName_ways_iff :
    (∀ name short long b b', name ≠ [] → NameBlocks name false short → NameBlocks name true long →
      (writtenNames s (short ++ [b]) = writtenNames s (long ++ [b']) ↔
        TarFilenameProcessor.FreshTop s.derived.da name)) ∧
    ∀ a b longA longB blocksA blocksB between x y, NameBlocks a longA blocksA →
      NameBlocks b longB blocksB →
      basename a ≠ [] → basename b ≠ [] → dirname a = dirname b →
      (∀ block ∈ between, block.length = tarBlockSize) →
      ((machine setTarInfo).run s (blocksA ++ between)).1.status = .header →
      ((machine setTarInfo).run s (blocksA ++ between)).1.eof = false →
      ((writtenNames s (blocksA ++ [x])).map dirname =
          (writtenNames ((machine setTarInfo).run s (blocksA ++ between)).1 (blocksB ++ [y])).map
          dirname ↔
        ((longA = true ∧ slash ∈ a) ↔ (longB = true ∧ slash ∈ b))) :=
  ⟨fun name short long b b' some_ byHeader byRecord =>
      writtenNames_way_iff waiting name some_ short long b b' byHeader byRecord,
    fun a b longA longB blocksA blocksB between x y namedA namedB fileA fileB same sizes
      ready open_ =>
      writtenNames_directory_iff waiting a b longA longB blocksA blocksB between x y namedA
        namedB fileA
        fileB same sizes ready open_⟩

end Ways

/-! ### A file of the inbox -/

/-- The header and the block of a name that fits into one block. -/
def longLinkHeader (name : Bytes) : Bytes :=
  headerBlock (ascii "././@LongLink") (name.length + 1) lftype .blank

def longLinkBlock (name : Bytes) : Bytes := name ++ 0 :: List.replicate (511 - name.length) 0

theorem longLinkName_length : (ascii "././@LongLink").length < 100 := by decide

theorem longLinkBlock_length (name : Bytes) (fits : name.length < 512) :
    ∀ b ∈ [longLinkBlock name], b.length = tarBlockSize := by
  intro b member
  rw [List.mem_singleton.mp member, longLinkBlock, List.length_append, List.length_cons,
    List.length_replicate, tarBlockSize]
  omega

theorem longLink_announced (name : Bytes) (fits : name.length < 512) :
    [longLinkBlock name].length = (headerSize (longLinkHeader name) + 511) / 512 := by
  rw [longLinkHeader, headerSize, size_headerBlock _ _ _ _ longLinkName_length,
    size_field_roundtrip _ (by omega), List.length_singleton]
  omega

/-- The record of such a name. -/
def longLink (name : Bytes) (fits : name.length < 512) : LongName where
  header := longLinkHeader name
  blocks := [longLinkBlock name]
  header_length := headerBlock_length _ _ _ _ longLinkName_length.le
  header_magic := magic_headerBlock _ _ _ _ longLinkName_length
  header_typeflag := typeflag_headerBlock _ _ _ _ longLinkName_length
  blocks_length := longLinkBlock_length name fits
  announced := longLink_announced name fits
  nonempty := List.cons_ne_nil _ _

theorem name_longLink (name : Bytes) (fits : name.length < 512) (clean : 0 ∉ name) :
    (longLink name fits).name = name := cstr_terminated name _ clean

theorem isFileHeader_headerBlock (name : Bytes) (size : Nat) (rest : HeaderRest)
    (fits : name.length < 100) :
    IsFileHeader (headerBlock name size regtype rest) :=
  ⟨magic_headerBlock _ _ _ _ fits, typeflag_headerBlock _ _ _ _ fits⟩

/-- The two ways for a mail of one byte. -/
def inboxHeader (name : Bytes) : Bytes := headerBlock name 1 regtype .blank

theorem nameBlocks_short (name : Bytes) (fits : name.length < 100) (clean : 0 ∉ name) :
    NameBlocks name false [inboxHeader name] :=
  .short _ (isFileHeader_headerBlock _ _ _ fits) fits (name_headerBlock _ _ _ _ fits clean)

theorem nameBlocks_long (name : Bytes) (fits : name.length < 100) (clean : 0 ∉ name) :
    NameBlocks name true ((longLink name (by omega)).header :: ((longLink name (by omega)).blocks ++
      [inboxHeader name])) :=
  .long _ _ (isFileHeader_headerBlock _ _ _ fits) (name_longLink name (by omega) clean)

/-- The first file of an archive. -/
theorem longName_ways_first :
    writtenNames (init (ascii "D")) ([inboxHeader (ascii "Inbox/1.eml")] ++ [zeroBlock]) =
      writtenNames (init (ascii "D")) ((longLink (ascii "Inbox/1.eml") (by decide)).header ::
        ((longLink (ascii "Inbox/1.eml") (by decide)).blocks ++
        [inboxHeader (ascii "Inbox/1.eml")]) ++
        [zeroBlock]) :=
  ((longName_ways_iff ⟨rfl, rfl, [], rfl⟩).1 (ascii "Inbox/1.eml") _ _ _ _ (by decide)
    (nameBlocks_short _ (by decide) (by decide)) (nameBlocks_long _ (by decide) (by decide))).mpr
    ⟨by decide, ascii "Inbox", [], ascii "1.eml", by decide, fun _ _ => ⟨rfl, List.not_mem_nil⟩⟩

/-- The stream after a file of the inbox. -/
def afterInbox : ZimbraUntarStream :=
  { init (ascii "D") with
    derived := ((TarFilenameProcessor.init (ascii "D")).process (ascii "Inbox/2.eml")).1 }

/-- The next one goes to another directory when its name comes in a record. -/
theorem longName_ways_next :
    ¬ writtenNames afterInbox ([inboxHeader (ascii "Inbox/1.eml")] ++ [zeroBlock]) =
      writtenNames afterInbox ((longLink (ascii "Inbox/1.eml") (by decide)).header ::
        ((longLink (ascii "Inbox/1.eml") (by decide)).blocks ++
        [inboxHeader (ascii "Inbox/1.eml")]) ++
        [zeroBlock]) := by
  rw [writtenNames_way_iff (s := afterInbox) ⟨rfl, rfl, [ascii "Inbox/2.eml"], rfl⟩
    (ascii "Inbox/1.eml") (by decide) _ _ _ _ (nameBlocks_short _ (by decide) (by decide))
    (nameBlocks_long _ (by decide) (by decide))]
  rintro ⟨-, top, dirs, last, parts, fresh⟩
  have cut : split (TarFilenameProcessor.processFilename (ascii "Inbox/1.eml")) slash =
      [ascii "Inbox", ascii "1.eml"] := by decide
  rw [cut] at parts
  obtain ⟨rfl, -⟩ := List.cons.inj parts
  exact absurd (fresh _ (.inl rfl)).1 (by decide)

end ZimbraUntarStream

end Zn
