import MyStudy.Zn.UntarSkipped

/-!
# Entries the stream notices

An entry that is inserted where the stream stumbles over it shows in the calls, if not for the
archive at hand then for one that goes on in another way.
-/
namespace Zn

abbrev WholeBlock := { b : Bytes // b.length = tarBlockSize }

def Item.ofBlock (b : WholeBlock) : Item := .block b.1 b.2

/-- An entry between the blocks of an archive. -/
def inserted (front : List WholeBlock) (x : SkippedEntry) (rest : List WholeBlock) : List Item :=
  front.map .ofBlock ++ .skipped x :: rest.map .ofBlock

open UntarStream in
/-- The insertions leave every call of `on_write` as it is. -/
def SameCalls (items : List Item) : Prop :=
  (feed setTarInfo (UntarStream.init (), []) (extended items).flatten).2 =
    (feed setTarInfo (UntarStream.init (), []) (original items).flatten).2

open UntarStream in
/-- The stream that has read these blocks. -/
def streamAfter (front : List WholeBlock) : UntarStream Unit :=
  ((machine setTarInfo).run (UntarStream.init ()) (front.map Subtype.val)).1

theorem extended_append (items items' : List Item) :
    extended (items ++ items') = extended items ++ extended items' := by
  induction items with
  | nil => rfl
  | cons item items ih => cases item <;> simp [extended, ih]

theorem original_append (items items' : List Item) :
    original (items ++ items') = original items ++ original items' := by
  induction items with
  | nil => rfl
  | cons item items ih => cases item <;> simp [original, ih]

theorem extended_blocks (blocks : List WholeBlock) :
    extended (blocks.map .ofBlock) = blocks.map Subtype.val := by
  induction blocks with
  | nil => rfl
  | cons b blocks ih => simp [Item.ofBlock, extended, ih]

theorem original_blocks (blocks : List WholeBlock) :
    original (blocks.map .ofBlock) = blocks.map Subtype.val := by
  induction blocks with
  | nil => rfl
  | cons b blocks ih => simp [Item.ofBlock, original, ih]

open UntarStream

theorem sameCalls_iff_run (items : List Item) :
    SameCalls items ↔ ((machine setTarInfo).run (UntarStream.init ()) (extended items)).2 =
      ((machine setTarInfo).run (UntarStream.init ()) (original items)).2 := by
  rw [SameCalls, feed_flatten _ _ _ (mem_extended_length items),
    feed_flatten _ _ _ (mem_original_length items)]

/-- Only what comes after the front can make a difference. -/
theorem sameCalls_inserted_iff (front : List WholeBlock) (x : SkippedEntry)
    (rest : List WholeBlock) :
    SameCalls (inserted front x rest) ↔
      ((machine setTarInfo).run (streamAfter front) (x.blocks ++ rest.map Subtype.val)).2 =
        ((machine setTarInfo).run (streamAfter front) (rest.map Subtype.val)).2 := by
  have split (bs : List Bytes) :
      ((machine setTarInfo).run (UntarStream.init ()) (front.map Subtype.val ++ bs)).2 =
        ((machine setTarInfo).run (UntarStream.init ()) (front.map Subtype.val)).2 ++
          ((machine setTarInfo).run (streamAfter front) bs).2 := by
    rw [BlockMachine.run_append]
    rfl
  rw [sameCalls_iff_run, inserted, extended_append, original_append, extended, original,
    extended_blocks, original_blocks, extended_blocks, original_blocks, split, split,
    List.append_cancel_left_eq]

/-- An archive without insertions goes unnoticed. -/
theorem unnoticed_blocks (s : UntarStream Unit) (blocks : List WholeBlock) :
    unnoticed s none (blocks.map .ofBlock) = true := by
  induction blocks generalizing s with
  | nil => rfl
  | cons b blocks ih => simp [Item.ofBlock, unnoticed, ih]

/-! ### Runs without a call -/

namespace UntarStream

variable (s : UntarStream Unit) (b : Bytes)

/-- A block counts as an end mark or it does not. -/
theorem feedBlock_count : s.tarEndCount ≤ (feedBlock setTarInfo s b).1.tarEndCount ∧
    (feedBlock setTarInfo s b).1.tarEndCount ≤ s.tarEndCount + 1 := by
  have set : (setTarInfo s b).1.tarEndCount = s.tarEndCount := by
    rw [setTarInfo]
    generalize base8to10 (ascii2uint (TarHeader.size b)) = size
    split
    · rfl
    · split
      · rfl
      · split <;> rfl
  rw [feedBlock]
  split
  · split <;> simp [set]
  · split <;> simp [set]
  · split <;> simp
  · split <;> simp

theorem feedBlock_content_calls (busy : s.status = .content) :
    (feedBlock setTarInfo s b).2 ≠ [] := by
  simp only [feedBlock, busy]
  split <;> simp

theorem run_count (bs : List Bytes) (few : s.tarEndCount ≤ tarEnd) :
    s.tarEndCount ≤ ((machine setTarInfo).run s bs).1.tarEndCount ∧
      ((machine setTarInfo).run s bs).1.tarEndCount ≤ tarEnd := by
  induction bs generalizing s with
  | nil => exact ⟨Nat.le_refl _, few⟩
  | cons b bs ih =>
    cases open_ : s.eof with
    | true =>
      rw [run_eof _ s _ open_]
      exact ⟨Nat.le_refl _, few⟩
    | false =>
      rw [run_block _ s b bs open_]
      have step := feedBlock_count s b
      have below : s.tarEndCount ≠ tarEnd := by simpa [eof] using open_
      obtain ⟨more, bound⟩ := ih (feedBlock setTarInfo s b).1 (by omega)
      exact ⟨Nat.le_trans step.1 more, bound⟩

/-- Away from headers no block leads back to them without a call. -/
theorem feedBlock_stays (away : s.status ≠ .header) (silent : (feedBlock setTarInfo s b).2 = []) :
    (feedBlock setTarInfo s b).1.status ≠ .header := by
  cases status : s.status with
  | header => exact absurd status away
  -- content would have made a call
  | content => exact absurd silent (feedBlock_content_calls s b status)
  | longname =>
    simp only [feedBlock, status]
    split <;> simp
  -- a pending long name stays, is replaced or turns into a file
  | longnameHeader =>
    have expects : s.expectsHeader = true := by simp [expectsHeader, status]
    cases opening : opens b with
    | true =>
      rcases ((opens_iff b).mp opening).2 with file | long
      · rw [feedBlock_file s b expects opening file]; simp
      · rw [feedBlock_longname s b expects opening long]; simp
    | false =>
      obtain ⟨info, _, step⟩ := feedBlock_rejected s b expects opening
      rw [step]
      simp [status]

theorem run_stays (bs : List Bytes) (away : s.status ≠ .header)
    (silent : ((machine setTarInfo).run s bs).2 = []) :
    ((machine setTarInfo).run s bs).1.status ≠ .header := by
  induction bs generalizing s with
  | nil => exact away
  | cons b bs ih =>
    cases open_ : s.eof with
    | true => rwa [run_eof _ s _ open_]
    | false =>
      rw [run_block _ s b bs open_] at silent ⊢
      obtain ⟨first, later⟩ := List.append_eq_nil_iff.mp silent
      exact ih _ (feedBlock_stays s b away first) later

/-- A whole block of zeros has the zero in its magic that the stream looks at first. -/
theorem endMark_of_allZero (whole : b.length = tarBlockSize) (zero : allZero b = true) :
    (TarHeader.magic b).head? = some 0 := by
  have same : b = zeroBlock := by
    refine List.eq_replicate_iff.mpr ⟨whole, fun c member => ?_⟩
    rw [allZero, List.all_eq_true] at zero
    simpa using zero c member
  rw [same]
  simp only [TarHeader.magic, TarHeader.field, zeroBlock, tarBlockSize, List.drop_replicate,
    List.take_replicate, Nat.reduceSub, Nat.reduceLeDiff, Nat.min_eq_left]
  rfl

/-- What a run without calls can come to from a header: nothing, or the stream is away from
headers, or closer to the end. -/
theorem run_silent (bs : List Bytes) (sizes : ∀ b ∈ bs, b.length = tarBlockSize)
    (ready : s.status = .header) (open_ : s.eof = false) (few : s.tarEndCount ≤ tarEnd)
    (silent : ((machine setTarInfo).run s bs).2 = []) :
    bs.all inert = true ∨ ((machine setTarInfo).run s bs).1.status ≠ .header ∨
      s.tarEndCount < ((machine setTarInfo).run s bs).1.tarEndCount := by
  induction bs generalizing s with
  | nil => exact Or.inl rfl
  | cons b bs ih =>
    have expects : s.expectsHeader = true := by simp [expectsHeader, ready]
    have below : s.tarEndCount ≠ tarEnd := by simpa [eof] using open_
    have step := feedBlock_count s b
    rw [run_block _ s b bs open_] at silent ⊢
    obtain ⟨_, later⟩ := List.append_eq_nil_iff.mp silent
    have count := run_count (feedBlock setTarInfo s b).1 bs (by omega)
    cases opening : opens b with
    | true =>
      -- the block opens an entry, and without a call there is no way back
      have away : (feedBlock setTarInfo s b).1.status ≠ .header := by
        rcases ((opens_iff b).mp opening).2 with file | long
        · rw [feedBlock_file s b expects opening file]; simp
        · rw [feedBlock_longname s b expects opening long]; simp
      exact Or.inr (Or.inl (run_stays _ bs away later))
    | false =>
      obtain ⟨info, _, fed⟩ := feedBlock_rejected s b expects opening
      -- the block is an end mark, or it is inert
      by_cases zero : (TarHeader.magic b).head? = some 0 ∧ allZero b
      · rw [if_pos zero] at fed
        refine Or.inr (Or.inr (Nat.lt_of_lt_of_le ?_ count.1))
        rw [fed]
        exact Nat.lt_succ_self _
      · rw [if_neg zero, Nat.add_zero] at fed
        have still : inert b = true := by
          have other : allZero b = false := by
            by_contra all
            have all' : allZero b = true := by simpa using all
            exact zero ⟨endMark_of_allZero b (sizes b (by simp)) all', all'⟩
          rw [inert, opening, other]
          rfl
        rw [fed] at later ⊢
        rw [List.all_cons, still, Bool.true_and]
        exact ih { s with tarInfo := info }
          (fun c member => sizes c (List.mem_cons_of_mem b member))
          ready (by simpa only [eof] using open_) few later

/-- Away from content no block makes a call. -/
theorem feedBlock_silent (away : s.status ≠ .content) : (feedBlock setTarInfo s b).2 = [] := by
  rw [feedBlock]
  split
  · split <;> rfl
  · split <;> rfl
  next busy => exact absurd busy away
  · split <;> rfl

/-- A file of one byte makes one call, under the name the stream has for it. -/
theorem run_file (f : RegularFile) (one : f.content.length = 1) (expects : s.expectsHeader = true)
    (open_ : s.eof = false) :
    ∃ info : TarInfo, info.name = s.nameFor f.header ∧
      ((machine setTarInfo).run s [f.header, b]).2 = [⟨info, b.take 1⟩] := by
  have fits : f.name.length < 100 := by have := f.name_length; omega
  have file : TarHeader.typeflag f.header = regtype := typeflag_headerBlock _ _ _ _ fits
  have opening : opens f.header = true := (opens_iff _).mpr ⟨f.header_magic, Or.inl file⟩
  have size : headerSize f.header = 1 := f.header_size.trans one
  rw [run_block _ s _ _ open_, feedBlock_file s _ expects opening file, List.nil_append,
    run_block _ _ b [] (by simpa only [eof] using open_), feedBlock_content_last _ _ b rfl (by
      rw [size, tarBlockSize]; exact (by decide : (1 : Nat) ≤ 512)), BlockMachine.run_nil]
  simp only [size, List.append_nil]
  exact ⟨_, rfl, rfl⟩

end UntarStream

def RegularFile.asBlock (f : RegularFile) : WholeBlock := ⟨f.header, f.header_length⟩

def zeroWhole : WholeBlock := ⟨zeroBlock, List.length_replicate⟩

def otherFile : RegularFile :=
  { oneByteFile with name := ascii "more", name_length := by decide, name_clean := by decide }

/-- A stream at a header takes the name of a file from it. -/
theorem nameFor_header (s : UntarStream Unit) (f : RegularFile) (ready : s.status = .header) :
    s.nameFor f.header = f.name := by
  have fits : f.name.length < 100 := by have := f.name_length; omega
  rw [nameFor, if_pos ready]
  exact name_headerBlock _ _ _ _ fits f.name_clean

/-- What comes next tells the two streams apart. -/
def ToldApart (s t : UntarStream Unit) : Prop :=
  ∃ rest : List WholeBlock, ((machine setTarInfo).run t (rest.map Subtype.val)).2 ≠
    ((machine setTarInfo).run s (rest.map Subtype.val)).2

/-- Of two streams at headers one is closer to the end: the end mark that is still missing for it is
not enough for the other, which then reads a file. -/
theorem toldApart_of_count (s t : UntarStream Unit) (ready : s.status = .header)
    (ready' : t.status = .header) (open_ : s.eof = false) (open' : t.eof = false)
    (few : t.tarEndCount ≤ tarEnd) (ahead : s.tarEndCount < t.tarEndCount) : ToldApart s t := by
  have two : tarEnd = 2 := rfl
  have before : t.tarEndCount ≠ tarEnd := by simpa [eof] using open'
  have last : t.tarEndCount + 1 = tarEnd := by omega
  obtain ⟨info, _, call⟩ := run_file { s with tarEndCount := s.tarEndCount + 1 } zeroBlock
    oneByteFile rfl (by simp [expectsHeader, ready]) (by simp [eof]; omega)
  refine ⟨[zeroWhole, oneByteFile.asBlock, zeroWhole], ?_⟩
  simp only [List.map_cons, List.map_nil, zeroWhole, RegularFile.asBlock]
  rw [run_block _ t _ _ open', run_block _ s _ _ open_,
    feedBlock_zeroBlock _ t (Or.inl ready'), feedBlock_zeroBlock _ s (Or.inl ready),
    run_eof _ { t with tarEndCount := t.tarEndCount + 1 } _ (by simp [eof, last])]
  exact fun same => by simp [call] at same

/-- A file goes under the name that is pending, so that one of two names shows it. -/
theorem toldApart_of_pending (s t : UntarStream Unit) (ready : s.status = .header)
    (pending : t.status = .longnameHeader) (open_ : s.eof = false) (open' : t.eof = false) :
    ToldApart s t := by
  have expects : s.expectsHeader = true := by simp [expectsHeader, ready]
  have expects' : t.expectsHeader = true := by simp [expectsHeader, pending]
  obtain ⟨f, one, other⟩ : ∃ f : RegularFile, f.content.length = 1 ∧ f.name ≠ t.tarInfo.name := by
    by_cases same : t.tarInfo.name = ascii "data"
    · exact ⟨otherFile, rfl, same ▸ by decide⟩
    · exact ⟨oneByteFile, rfl, fun equal => same equal.symm⟩
  obtain ⟨info, name, call⟩ := run_file s zeroBlock f one expects open_
  obtain ⟨info', name', call'⟩ := run_file t zeroBlock f one expects' open'
  refine ⟨[f.asBlock, zeroWhole], ?_⟩
  simp only [List.map_cons, List.map_nil, zeroWhole, RegularFile.asBlock]
  rw [call, call']
  intro same
  simp only [List.cons.injEq, WriteCall.mk.injEq, and_true] at same
  rw [nameFor_header s f ready] at name
  rw [nameFor, if_neg (by simp [pending])] at name'
  exact other (by rw [← name, ← name', same])

/-- A stream at a header and one that is away from headers or closer to the end are told apart by
what comes next. -/
theorem told_apart (s t : UntarStream Unit) (ready : s.status = .header) (open_ : s.eof = false)
    (few : t.tarEndCount ≤ tarEnd)
    (apart : t.status ≠ .header ∨ s.tarEndCount < t.tarEndCount) : ToldApart s t := by
  have expects : s.expectsHeader = true := by simp [expectsHeader, ready]
  obtain ⟨info, _, call⟩ := run_file s zeroBlock oneByteFile rfl expects open_
  cases ended : t.eof with
  | true =>
    -- one has ended, the other reads a file
    refine ⟨[oneByteFile.asBlock, zeroWhole], ?_⟩
    rw [run_eof _ t _ ended]
    exact fun same => by simp [RegularFile.asBlock, zeroWhole, call] at same
  | false =>
    cases status : t.status with
    | header =>
      have ahead : s.tarEndCount < t.tarEndCount := by simpa [status] using apart
      exact toldApart_of_count s t ready status open_ ended few ahead
    | content =>
      -- the other is inside of an entry and delivers even the zeros
      refine ⟨[zeroWhole], ?_⟩
      simp only [List.map_cons, List.map_nil, zeroWhole]
      rw [run_block _ t _ _ ended, run_block _ s _ _ open_,
        feedBlock_zeroBlock _ s (Or.inl ready)]
      exact fun same => feedBlock_content_calls t zeroBlock status (by simpa using same)
    | longname =>
      -- the header of a file is part of the long name for the other
      refine ⟨[oneByteFile.asBlock, zeroWhole], ?_⟩
      simp only [List.map_cons, List.map_nil, zeroWhole, RegularFile.asBlock]
      have away : (feedBlock setTarInfo t oneByteFile.header).1.status ≠ .content := by
        simp only [feedBlock, status]
        split <;> simp
      have open' : (feedBlock setTarInfo t oneByteFile.header).1.eof = false := by
        simp only [feedBlock, status]
        split <;> simpa only [eof] using ended
      rw [call, run_block _ t _ _ ended, run_block _ _ _ _ open',
        feedBlock_silent t _ (by simp [status]), feedBlock_silent _ _ away]
      simp
    | longnameHeader => exact toldApart_of_pending s t ready status open_ ended

/-- In one block or another the entry opens a long name, or a block of its data is not inert. -/
theorem SkippedEntry.blocks_inert_iff (x : SkippedEntry) :
    x.blocks.all inert = true ↔ x.longName = none ∧ x.data.all inert = true := by
  have header := x.header_inert
  cases record : x.longName with
  | none => simp [SkippedEntry.blocks, SkippedEntry.nameBlocks, record, header]
  | some l =>
    have opening : opens l.header = true :=
      (opens_iff _).mpr ⟨l.header_magic, Or.inr l.header_typeflag⟩
    simp [SkippedEntry.blocks, SkippedEntry.nameBlocks, record, inert, opening]

theorem streamAfter_count (front : List WholeBlock) : (streamAfter front).tarEndCount ≤ tarEnd :=
  (run_count (UntarStream.init ()) (front.map Subtype.val) (Nat.zero_le _)).2

/-- An entry that makes no call and leaves the stream at a header is one the stream does not
notice, and the only one. -/
theorem run_inserted_iff (s : UntarStream Unit) (x : SkippedEntry) (few : s.tarEndCount ≤ tarEnd)
    (open_ : s.eof = false) (ready : s.status = .header) :
    (∀ rest : List WholeBlock,
      ((machine setTarInfo).run s (x.blocks ++ rest.map Subtype.val)).2 =
        ((machine setTarInfo).run s (rest.map Subtype.val)).2) ↔ x.blocks.all inert = true := by
  have expects : s.expectsHeader = true := by simp [expectsHeader, ready]
  constructor
  · intro same
    -- with nothing after the entry there is nothing it could be made up for
    have silent : ((machine setTarInfo).run s x.blocks).2 = [] := by simpa using same []
    have count := run_count s x.blocks few
    rcases run_silent s x.blocks x.mem_blocks_length ready open_ few silent with inert | apart
    · exact inert
    · obtain ⟨rest, differ⟩ := told_apart s _ ready open_ count.2 apart
      have here := same rest
      rw [BlockMachine.run_append, silent, List.nil_append] at here
      exact absurd here differ
  · intro quiet rest
    obtain ⟨info, _, run⟩ := run_inert s x.blocks expects open_ quiet
    -- what the entry leaves behind in `tarInfo` is not read
    have alike := run_unnoticed (rest.map .ofBlock) s { s with tarInfo := info } none rfl
      (.header ready ready) (unnoticed_blocks s rest)
    rw [extended_blocks, original_blocks] at alike
    rw [BlockMachine.run_append, run, List.nil_append]
    exact alike

/-- Unnoticed insertions leave every call of `on_write` as it is. Where no long name is pending, an
entry goes unnoticed whatever follows exactly if the archive has ended, or the stream is at a
header, the entry has no long name and all its data is inert. -/
theorem untar_skips_exactly (items : List Item) (front : List WholeBlock) (x : SkippedEntry) :
    (unnoticed (UntarStream.init ()) none items = true → SameCalls items) ∧
    ((streamAfter front).status = .header ∨ (streamAfter front).status = .content →
      ((∀ rest, SameCalls (inserted front x rest)) ↔
        (streamAfter front).eof = true ∨ ((streamAfter front).status = .header ∧
          x.longName = none ∧ x.data.all inert = true))) := by
  refine ⟨fun quiet => (sameCalls_iff_run items).mpr
    (run_unnoticed items _ _ none rfl (.header rfl rfl) quiet), fun place => ?_⟩
  simp only [sameCalls_inserted_iff]
  cases open_ : (streamAfter front).eof with
  | true =>
    -- after the end of the archive nothing is read
    refine iff_of_true (fun rest => ?_) (Or.inl rfl)
    rw [run_eof _ _ _ open_, run_eof _ _ _ open_]
  | false =>
    rw [← x.blocks_inert_iff]
    rcases place with ready | busy
    · rw [run_inserted_iff _ x (streamAfter_count front) open_ ready]
      simp [ready]
    · refine iff_of_false (fun same => ?_) (by simp [busy])
      -- inside of an entry the first block of the insertion is delivered
      obtain ⟨b, bs, blocks⟩ : ∃ b bs, x.blocks = b :: bs :=
        List.exists_cons_of_ne_nil (by simp [SkippedEntry.blocks])
      have silent := same []
      rw [blocks, List.cons_append, run_block _ _ b _ open_] at silent
      exact feedBlock_content_calls _ b busy (List.append_eq_nil_iff.mp silent).1

/-- A directory with one block of data. -/
def directoryEntry (data : Bytes) (whole : data.length = tarBlockSize) : SkippedEntry where
  longName := none
  header := headerBlock (ascii "dir/") 512 '5'.toUInt8 .blank
  data := [data]
  header_length := headerBlock_length _ _ _ _ (by decide)
  header_inert := by decide +kernel
  data_length := by simpa using whole

def sevens : SkippedEntry := directoryEntry (List.replicate 512 7) List.length_replicate

/-- A directory whose data is a block of sevens, inserted before a file of one byte. -/
def sevensBeforeFile : List Item :=
  .skipped sevens ::
    (archiveBlocks [oneByteFile]).attach.map fun b => .block b.1 (mem_archiveBlocks_length _ _ b.2)

theorem untar_skips_exactly_sevens :
    SameCalls sevensBeforeFile ∧ ∀ rest, SameCalls (inserted [] sevens rest) := by
  obtain ⟨quiet, exactly⟩ := untar_skips_exactly sevensBeforeFile [] sevens
  exact ⟨quiet (by decide +kernel),
    (exactly (by decide +kernel)).mpr (Or.inr (by decide +kernel))⟩

/-- A directory whose data is the header of a file, inserted before the end of an archive. -/
def headerBeforeEnd : List Item :=
  [.skipped (directoryEntry oneByteFile.header oneByteFile.header_length),
    .block zeroBlock List.length_replicate, .block zeroBlock List.length_replicate]

/-- The data of a directory is taken for a header, and the end mark for the content of a file. -/
theorem untar_writes_directory_data :
    (feed setTarInfo (UntarStream.init (), []) (extended headerBeforeEnd).flatten).2 =
        [⟨⟨ascii "data", 1, 1, 0, []⟩, [0]⟩] ∧
      (feed setTarInfo (UntarStream.init (), []) (original headerBeforeEnd).flatten).2 = [] := by
  decide +kernel

end Zn
