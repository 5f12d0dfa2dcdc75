import MyStudy.Zn.UntarContent

/-!
# Reading an archive of regular files back

An empty file leaves the stream waiting for a block of content, so the block after it, the header
of the next file, is spent on it. Two empty files in a row cost only the second one's header; an
odd number of them before a file with content costs that file.
-/
namespace Zn

/-! ### Streams outside of content -/

namespace UntarStream

variable {ρ : Type}

/-- The stream is not inside of an entry's content. -/
def Idle (s : UntarStream ρ) : Prop := s.status = .content → s.tarInfo.bytesLeft = 0

theorem idle_of_status {s : UntarStream ρ} (outside : s.status ≠ .content) : Idle s :=
  fun inside => absurd inside outside

/-- The plain `_set_tar_info` opens an entry or leaves the stream idle. -/
theorem setTarInfo_cases (s : UntarStream ρ) (b : Bytes) (outside : s.status ≠ .content) :
    Idle (setTarInfo s b).1 ∨
      ((TarHeader.magic b).take 5 = tmagic ∧ (setTarInfo s b).1.status = .content ∧
        (setTarInfo s b).1.tarInfo.bytesLeft = base8to10 (ascii2uint (TarHeader.size b)) ∧
        0 < base8to10 (ascii2uint (TarHeader.size b)) ∧
        (setTarInfo s b).1.tarEndCount = s.tarEndCount) := by
  rw [setTarInfo]
  generalize base8to10 (ascii2uint (TarHeader.size b)) = size
  split
  · exact Or.inl (idle_of_status outside)
  next magic =>
    split
    -- a file of size 0 is open and idle: the next block will be its content
    · by_cases empty : size = 0
      · exact Or.inl fun _ => empty
      · exact Or.inr ⟨by simpa using magic, rfl, rfl, Nat.pos_of_ne_zero empty, rfl⟩
    · split
      · exact Or.inl (idle_of_status (by simp))
      · exact Or.inl (idle_of_status outside)

/-- A block either keeps the stream idle and delivers nothing, or is a header that opens an entry
with content. -/
theorem idle_step (s : UntarStream ρ) (b : Bytes) (idle : Idle s) (open_ : s.eof = false) :
    (Idle (feedBlock setTarInfo s b).1 ∧
      ∀ more, delivered ((feedBlock setTarInfo s b).2 ++ more) = delivered more) ∨
    ((TarHeader.magic b).take 5 = tmagic ∧ (feedBlock setTarInfo s b).2 = [] ∧
      (feedBlock setTarInfo s b).1.status = .content ∧
      (feedBlock setTarInfo s b).1.tarInfo.bytesLeft =
        base8to10 (ascii2uint (TarHeader.size b)) ∧
      0 < base8to10 (ascii2uint (TarHeader.size b)) ∧
      (feedBlock setTarInfo s b).1.eof = false) := by
  have atHeader (outside : s.status ≠ .content) :
      (Idle (setTarInfo s b).1 ∧
        ∀ more, delivered (([] : List WriteCall) ++ more) = delivered more) ∨
      ((TarHeader.magic b).take 5 = tmagic ∧ ([] : List WriteCall) = [] ∧
        (setTarInfo s b).1.status = .content ∧
        (setTarInfo s b).1.tarInfo.bytesLeft = base8to10 (ascii2uint (TarHeader.size b)) ∧
        0 < base8to10 (ascii2uint (TarHeader.size b)) ∧ (setTarInfo s b).1.eof = false) := by
    rcases setTarInfo_cases s b outside with still | ⟨magic, status, left, pos, count⟩
    · exact Or.inl ⟨still, fun more => rfl⟩
    · exact Or.inr ⟨magic, rfl, status, left, pos, by rw [eof, count]; exact open_⟩
  cases status : s.status with
  | header =>
    simp only [feedBlock, status]
    split
    · exact Or.inl ⟨idle_of_status (by simp), fun more => rfl⟩
    · exact atHeader (by simp [status])
  | longnameHeader =>
    simp only [feedBlock, status]
    split
    · exact Or.inl ⟨idle_of_status (by simp), fun more => rfl⟩
    · exact atHeader (by simp [status])
  | content =>
    -- an empty file takes the block and gives none of it
    have nothing := idle status
    rw [feedBlock_content_last setTarInfo s b status (by rw [nothing]; exact Nat.zero_le _)]
    refine Or.inl ⟨idle_of_status (by simp [cleared]), fun more => ?_⟩
    rw [nothing, List.take_zero, List.singleton_append, delivered,
      groupCalls_last _ _ (by simp [WriteCall.isLast, nothing])]
    rfl
  | longname =>
    simp only [feedBlock, status]
    split
    · exact Or.inl ⟨idle_of_status (by simp), fun more => rfl⟩
    · exact Or.inl ⟨idle_of_status (by simp), fun more => rfl⟩

/-- What is delivered first starts after a block that reads as a header; the blocks after it go to
a stream that is idle again. -/
theorem first_delivery (s : UntarStream ρ) (bs : List Bytes)
    (sizes : ∀ b ∈ bs, b.length = tarBlockSize) (idle : Idle s) (first : Bytes × Bytes)
    (groups : List (Bytes × Bytes))
    (out : delivered ((machine setTarInfo).run s bs).2 = first :: groups) :
    ∃ before h after, bs = before ++ h :: after ∧ (TarHeader.magic h).take 5 = tmagic ∧
      0 < base8to10 (ascii2uint (TarHeader.size h)) ∧
      first.2 = after.flatten.take (base8to10 (ascii2uint (TarHeader.size h))) ∧
      ∃ s' : UntarStream ρ, Idle s' ∧ groups = delivered ((machine setTarInfo).run s'
        (after.drop ((base8to10 (ascii2uint (TarHeader.size h)) + 511) / 512))).2 := by
  induction bs generalizing s with
  | nil => simp [delivered, groupCalls] at out
  | cons b bs ih =>
    have rest : ∀ x ∈ bs, x.length = tarBlockSize :=
      fun x member => sizes x (List.mem_cons_of_mem b member)
    cases open_ : s.eof with
    -- a stream that has ended delivers nothing
    | true => rw [run_eof _ s _ open_] at out; simp [delivered, groupCalls] at out
    | false =>
      rw [run_block _ s b bs open_] at out
      rcases idle_step s b idle open_ with ⟨still, silent⟩ | ⟨magic, silent, busy, left, pos, go⟩
      -- still idle: what is delivered first comes from a later block
      · rw [silent] at out
        obtain ⟨before, h, after, rfl, found⟩ := ih _ rest still out
        exact ⟨b :: before, h, after, rfl, found⟩
      · rw [silent, List.nil_append] at out
        -- this is the header `h`, and its content starts with the next block
        have nonempty : bs ≠ [] := by
          rintro rfl
          simp [delivered, groupCalls] at out
        rw [delivered,
          groupCalls_content setTarInfo _ bs rest nonempty busy go (by rw [left]; exact pos), left]
          at out
        -- the group is not empty, so the filter keeps it
        have kept : bs.flatten.take (base8to10 (ascii2uint (TarHeader.size b))) ≠ [] := by
          obtain ⟨c, cs, rfl⟩ := List.exists_cons_of_ne_nil nonempty
          have block := rest c (by simp)
          apply List.ne_nil_of_length_pos
          rw [List.flatten_cons, List.length_take, List.length_append, block]
          exact lt_min pos (by rw [tarBlockSize]; omega)
        rw [List.filter_cons_of_pos (by simpa using kept), List.cons.injEq] at out
        exact ⟨[], b, bs, rfl, magic, pos, by rw [← out.1], cleared _,
          idle_of_status (by simp [cleared]), out.2.symm⟩

end UntarStream

/-! ### Marks of a header

A header cannot be told from its bytes alone, but the letter its magic begins with and its size
field can be followed through a periodic stretch of an archive. -/

/-- Block `m` of a byte string has the first letter of the magic and this size field. -/
def Marked (stream size : Bytes) (m : Nat) : Prop :=
  stream[512 * m + 257]? = some 'u'.toUInt8 ∧ TarHeader.field (512 * m + 124) 12 stream = size

theorem magic_letter (b : Bytes) (magic : (TarHeader.magic b).take 5 = tmagic) :
    b[257]? = some 'u'.toUInt8 := by
  have letter := congrArg (fun letters => letters[0]?) magic
  have first : tmagic[0]? = some 'u'.toUInt8 := by decide
  rw [first, List.getElem?_take_of_lt (by omega), TarHeader.magic, TarHeader.field,
    List.getElem?_take_of_lt (by omega), List.getElem?_drop] at letter
  exact letter

theorem field_drop (k offset len : Nat) (stream : Bytes) :
    TarHeader.field offset len (stream.drop k) = TarHeader.field (k + offset) len stream := by
  rw [TarHeader.field, TarHeader.field, List.drop_drop]

theorem field_append_right (front back : Bytes) (k offset len : Nat) (size : front.length = k) :
    TarHeader.field (k + offset) len (front ++ back) = TarHeader.field offset len back := by
  rw [← field_drop, ← size, List.drop_left]

theorem marked_append (front back size : Bytes) (k m : Nat) (length : front.length = 512 * k) :
    Marked (front ++ back) size (k + m) ↔ Marked back size m := by
  have letter : 512 * (k + m) + 257 = front.length + (512 * m + 257) := by rw [length]; ring
  have field : 512 * (k + m) + 124 = 512 * k + (512 * m + 124) := by ring
  rw [Marked, Marked, letter, List.getElem?_append_right (Nat.le_add_right _ _),
    Nat.add_sub_cancel_left, field, field_append_right _ _ _ _ _ length]

theorem field_congr (stream other : Bytes) (offset shift len : Nat)
    (same : ∀ i < len, stream[offset + i]? = other[shift + i]?) :
    TarHeader.field offset len stream = TarHeader.field shift len other := by
  apply List.ext_getElem?
  intro i
  -- a field has nothing past its length
  by_cases inside : i < len
  · simpa only [TarHeader.field, List.getElem?_take_of_lt inside, List.getElem?_drop]
      using same i inside
  · simp only [TarHeader.field, List.getElem?_take_eq_none (Nat.le_of_not_lt inside)]

theorem zeroPad_getElem? (content : Bytes) (i : Nat) (pad : content.length ≤ i) (c : UInt8)
    (at_ : (zeroPad content)[i]? = some c) : c = 0 := by
  rw [zeroPad, List.getElem?_append_right pad] at at_
  exact List.eq_of_mem_replicate (List.mem_of_getElem? at_)

theorem marked_header (bs : List Bytes) (sizes : ∀ b ∈ bs, b.length = tarBlockSize) (m : Nat)
    (h : Bytes) (after : List Bytes) (cut : bs.drop m = h :: after)
    (magic : (TarHeader.magic h).take 5 = tmagic) :
    Marked bs.flatten (TarHeader.size h) m := by
  have length : h.length = 512 :=
    sizes h (List.mem_of_mem_drop (i := m) (by rw [cut]; exact List.mem_cons_self))
  have front : bs.flatten.drop (512 * m) = h ++ after.flatten := by
    rw [← BlockMachine.flatten_drop m 512 bs sizes, cut, List.flatten_cons]
  -- letter and size stand in the first block of what starts at `m`
  refine ⟨?_, ?_⟩
  · rw [← List.getElem?_drop, front, List.getElem?_append_left (by omega)]
    exact magic_letter h magic
  · rw [← field_drop, front, TarHeader.size]
    apply field_congr
    intro i bound
    rw [List.getElem?_append_left (by omega)]

/-- A stretch that repeats with the period of `d` blocks over a whole content carries a mark from
a block of the content to a block within one period after it. -/
theorem mark_carried (content tail size : Bytes) (d : Nat)
    (periodic : ∀ i < content.length,
      (zeroPad content ++ tail)[512 * d + i]? = (zeroPad content ++ tail)[i]?)
    (m : Nat) (near : m < (content.length + 511) / 512 + d)
    (mark : Marked (zeroPad content ++ tail) size m) (pos : 0 < d) :
    ∃ m', (content.length + 511) / 512 ≤ m' ∧ m' < (content.length + 511) / 512 + d ∧
      Marked (zeroPad content ++ tail) size m' := by
  induction len : (content.length + 511) / 512 - m using Nat.strongRecOn generalizing m with
  | ind l ih =>
    by_cases outside : (content.length + 511) / 512 ≤ m
    · exact ⟨m, outside, near, mark⟩
    · -- the letter is no padding, so the mark lies within the content
      have letter := mark.1
      have padded := zeroPad_length content
      rw [List.getElem?_append_left (by omega)] at letter
      -- so it comes again a period later, closer to the end of the content
      have inside : 512 * m + 257 < content.length := by
        by_contra beyond
        have := zeroPad_getElem? content _ (by omega) _ letter
        exact absurd this (by decide)
      have next : Marked (zeroPad content ++ tail) size (m + d) := by
        refine ⟨?_, ?_⟩
        · have shifted : 512 * (m + d) + 257 = 512 * d + (512 * m + 257) := by ring
          rw [shifted, periodic _ inside]
          exact mark.1
        · rw [← mark.2]
          apply field_congr
          intro i bound
          have shifted : 512 * (m + d) + 124 + i = 512 * d + (512 * m + 124 + i) := by ring
          rw [shifted, periodic _ (by omega)]
      exact ih _ (by omega) (m + d) (by omega) next rfl

/-- A mark in what is left of an archive, with a size that is not 0, comes after the header of a
file with content. -/
theorem marked_archive (size : Bytes) (nonzero : base8to10 (ascii2uint size) ≠ 0)
    (files : List RegularFile) (m : Nat) (mark : Marked (encodeArchive files) size m) :
    ∃ empties f rest, files = empties ++ f :: rest ∧ (∀ e ∈ empties, e.content = []) ∧
      f.content ≠ [] ∧ empties.length ≤ m := by
  induction files generalizing m with
  | nil =>
    -- the end marks have no letter
    have zeros : encodeArchive [] = List.replicate (512 + 512) 0 := by
      rw [← List.replicate_append_replicate]; rfl
    have letter := mark.1
    rw [zeros] at letter
    have := List.eq_of_mem_replicate (List.mem_of_getElem? letter)
    exact absurd this (by decide)
  | cons e files ih =>
    by_cases content : e.content = []
    · have header : encodeArchive (e :: files) = e.header ++ encodeArchive files := by
        simp [encodeArchive, RegularFile.encode, content, zeroPad]
      rw [header] at mark
      cases m with
      | zero =>
        -- the header of an empty file has the size 0
        have field : TarHeader.size e.header = size := by
          rw [← mark.2, TarHeader.size]
          apply field_congr
          intro i bound
          rw [List.getElem?_append_left (by rw [e.header_length, tarBlockSize]; omega)]
        rw [← field, e.header_size, content] at nonzero
        exact absurd rfl nonzero
      | succ m =>
        rw [Nat.add_comm, marked_append _ _ _ 1 m (by rw [e.header_length]; rfl)] at mark
        obtain ⟨empties, f, rest, rfl, empty, more, bound⟩ := ih m mark
        refine ⟨e :: empties, f, rest, rfl, ?_, more, Nat.succ_le_succ bound⟩
        intro x member
        rcases List.mem_cons.mp member with rfl | later
        · exact content
        · exact empty x later
    -- the first file with content: whatever the mark is, it does not come before it
    · exact ⟨[], e, files, rfl, by simp, content, Nat.zero_le m⟩

/-! ### A file whose header is lost -/

namespace RegularFile

theorem expected_cons (f : RegularFile) (files : List RegularFile) (content : f.content ≠ []) :
    expected (f :: files) = (f.name, f.content) :: expected files := by
  simp [expected, content]

theorem expected_empties (empties files : List RegularFile)
    (empty : ∀ e ∈ empties, e.content = []) : expected (empties ++ files) = expected files := by
  induction empties with
  | nil => rfl
  | cons e empties ih =>
    have nothing : e.content = [] := empty e (by simp)
    rw [List.cons_append, ← ih fun x member => empty x (List.mem_cons_of_mem e member)]
    simp [expected, nothing]

end RegularFile

theorem archiveBlocks_empties (empties files : List RegularFile)
    (empty : ∀ e ∈ empties, e.content = []) :
    archiveBlocks (empties ++ files) = empties.map RegularFile.header ++ archiveBlocks files := by
  induction empties with
  | nil => rfl
  | cons e empties ih =>
    rw [List.cons_append, archiveBlocks_cons, empty e (by simp), contentBlocks_nil,
      ih fun x member => empty x (List.mem_cons_of_mem e member)]
    rfl

theorem mem_content_archive_length (f : RegularFile) (files : List RegularFile) :
    ∀ b ∈ contentBlocks f.content ++ archiveBlocks files, b.length = tarBlockSize := by
  intro b member
  rcases List.mem_append.mp member with body | rest
  · exact mem_contentBlocks_length _ b body
  · exact mem_archiveBlocks_length _ b rest

/-- A content taken from the front of blocks takes as many of them as its length says, or all. -/
theorem drop_taken_blocks (blocks : List Bytes) (sizes : ∀ b ∈ blocks, b.length = tarBlockSize)
    (content : Bytes) (size : Nat) (taken : content = blocks.flatten.take size) :
    blocks.drop ((size + 511) / 512) = blocks.drop ((content.length + 511) / 512) := by
  have long : blocks.flatten.length = 512 * blocks.length :=
    BlockMachine.flatten_length 512 blocks sizes
  have short := congrArg List.length taken
  rw [List.length_take, long] at short
  by_cases whole : size ≤ 512 * blocks.length
  · rw [short, Nat.min_eq_left whole]
  -- the blocks end before the content does
  · rw [Nat.min_eq_right (by omega)] at short
    rw [List.drop_of_length_le (by omega), List.drop_of_length_le (by omega)]

/-- Behind the content, the empty files after it and the header of the next file `g` the blocks of
`g` begin. -/
theorem drop_content_empties (f : RegularFile) (empties : List RegularFile) (g : RegularFile)
    (rest : List RegularFile) (m : Nat) (empty : ∀ e ∈ empties, e.content = [])
    (count : empties.length ≤ m) :
    (contentBlocks f.content ++ archiveBlocks (empties ++ g :: rest)).drop
        ((f.content.length + 511) / 512 + (m + 1)) =
      (contentBlocks g.content ++ archiveBlocks rest).drop (m - empties.length) := by
  have position : m + 1 = (empties.map RegularFile.header).length + (m - empties.length + 1) := by
    rw [List.length_map]
    omega
  rw [← List.drop_drop, ← contentBlocks_length, List.drop_left, archiveBlocks_empties _ _ empty,
    position, ← List.drop_drop, List.drop_left, archiveBlocks_cons, List.drop_succ_cons]

open UntarStream in
/-- Once the header of a file with content is lost, whatever comes out is not what was put in. If
the content came out all the same, a header inside of it would have to repeat itself through the
whole content and past its end; the entry it repeats in loses its header in turn. -/
theorem header_lost (f : RegularFile) (content : f.content ≠ []) (files : List RegularFile)
    (k : Nat) (s : UntarStream Unit) (idle : Idle s) :
    delivered ((machine setTarInfo).run s
        ((contentBlocks f.content ++ archiveBlocks files).drop k)).2 ≠
      RegularFile.expected (f :: files) := by
  induction len : files.length using Nat.strongRecOn generalizing f files k s with
  | ind l ih =>
    rw [f.expected_cons files content]
    intro out
    have sizes := mem_content_archive_length f files
    -- the content comes out first, from behind some block `h` that reads as a header
    obtain ⟨before, h, after, cut, magic, pos, same, s', idle', more⟩ :=
      first_delivery s _ (fun b member => sizes b (List.mem_of_mem_drop member)) idle _ _ out
    generalize stream : contentBlocks f.content ++ archiveBlocks files = bs at *
    have bytes : bs.flatten = zeroPad f.content ++ encodeArchive files := by
      rw [← stream, List.flatten_append, contentBlocks_flatten, archiveBlocks_flatten]
    have fromHeader : bs.drop (k + before.length) = h :: after := by
      rw [← List.drop_drop, cut, List.drop_left]
    have fromContent : bs.drop (k + before.length + 1) = after := by
      rw [← List.drop_drop, fromHeader]; rfl
    generalize at_ : k + before.length = m at fromHeader fromContent
    have allSizes : ∀ b ∈ bs, b.length = tarBlockSize := by
      rw [← stream]; exact mem_content_archive_length f files
    -- `h` is block `m`, and the content stands again behind it
    have mark := marked_header bs allSizes m h after fromHeader magic
    generalize TarHeader.size h = size at *
    have tail : after.flatten = bs.flatten.drop (512 * (m + 1)) := by
      rw [← fromContent, BlockMachine.flatten_drop _ _ _ allSizes]; rfl
    -- so what is left repeats itself with a period of `m + 1` blocks
    have periodic : ∀ i < f.content.length,
        (zeroPad f.content ++ encodeArchive files)[512 * (m + 1) + i]? =
          (zeroPad f.content ++ encodeArchive files)[i]? := by
      intro i bound
      have inside : i < base8to10 (ascii2uint size) := by
        have short := congrArg List.length same
        rw [List.length_take] at short
        exact Nat.lt_of_lt_of_le bound (short ▸ Nat.min_le_left _ _)
      rw [← bytes, ← List.getElem?_drop, ← tail, ← List.getElem?_take_of_lt inside, ← same, bytes,
        zeroPad, List.append_assoc, List.getElem?_append_left bound]
    rw [bytes] at mark
    -- carried past the content the mark of `h` meets a file with content, `g`
    obtain ⟨m', past, near, mark'⟩ :=
      mark_carried f.content (encodeArchive files) size (m + 1) periodic m (by omega) mark
        (Nat.succ_pos m)
    obtain ⟨x, rfl⟩ := Nat.exists_eq_add_of_le past
    rw [marked_append _ _ _ _ x (by rw [zeroPad_length, Nat.mul_comm])] at mark'
    obtain ⟨empties, g, rest, rfl, empty, filled, count⟩ :=
      marked_archive size (Nat.ne_of_gt pos) files x mark'
    rw [RegularFile.expected_empties _ _ empty] at more
    -- the archive ends inside of the content, or the content is as long as its header says
    have used := drop_taken_blocks after
      (fun b member => allSizes b (List.mem_of_mem_drop (fromContent ▸ member))) f.content _ same
    -- the stream goes on within `g`, whose header is behind it
    have left : after.drop ((base8to10 (ascii2uint size) + 511) / 512) =
        (contentBlocks g.content ++ archiveBlocks rest).drop (m - empties.length) := by
      rw [used, ← fromContent, List.drop_drop, Nat.add_comm, ← stream]
      exact drop_content_empties f empties g rest m empty (by omega)
    rw [left] at more
    -- the entries that are still to come out are those from `g` on, with its header lost
    have fewer : rest.length < l := by
      rw [← len, List.length_append, List.length_cons]; omega
    exact ih rest.length fewer g filled rest _ s' idle' rfl more.symm

/-! ### Reading back -/

/-- Empty files come in pairs before every file with content, and in any number at the end. -/
def aligned : List RegularFile → Prop
  | [] => True
  | [_] => True
  | f :: g :: files =>
    if f.content ≠ [] then aligned (g :: files) else g.content = [] ∧ aligned files

section ReadBack

open UntarStream

variable (s : UntarStream Unit) (ready : s.status = .header) (fresh : s.tarEndCount = 0)
include ready fresh

omit ready in
private theorem fresh_open : s.eof = false := by rw [eof, fresh]; rfl

theorem run_filled (f : RegularFile) (filled : f.content ≠ []) (rest : List Bytes)
    (sizes : ∀ b ∈ rest, b.length = tarBlockSize) :
    ∃ s' : UntarStream Unit, s'.status = .header ∧ s'.tarEndCount = 0 ∧
      delivered ((machine setTarInfo).run s (f.header :: (contentBlocks f.content ++ rest))).2 =
        (f.name, f.content) :: delivered ((machine setTarInfo).run s' rest).2 := by
  obtain ⟨info, name, left, next⟩ := f.setTarInfo_header s ready
  have some_ : 0 < f.content.length := List.length_pos_of_ne_nil filled
  have nonempty : contentBlocks f.content ++ rest ≠ [] := by
    apply List.ne_nil_of_length_pos
    rw [List.length_append, contentBlocks_length]
    omega
  have allSizes : ∀ b ∈ contentBlocks f.content ++ rest, b.length = tarBlockSize := by
    intro b member
    rcases List.mem_append.mp member with body | later
    · exact mem_contentBlocks_length _ b body
    · exact sizes b later
  -- the padding is cut off
  have content : (contentBlocks f.content ++ rest).flatten.take f.content.length = f.content := by
    rw [List.flatten_append, contentBlocks_flatten, zeroPad, List.append_assoc, List.take_left]
  refine ⟨{ s with status := .header, tarInfo := .clear }, rfl, fresh, ?_⟩
  rw [run_block _ s _ _ (fresh_open s fresh),
    feedBlock_header setTarInfo s _ (Or.inl ready) f.header_magic, next, List.nil_append, delivered,
    groupCalls_content setTarInfo _ _ allSizes nonempty rfl
      (by simpa only [eof] using fresh_open s fresh) (by simpa only [left] using some_)]
  simp only [name, left, content, cleared]
  rw [List.filter_cons_of_pos (by simpa using filled), ← contentBlocks_length, List.drop_left,
    delivered]

theorem run_empty (e : RegularFile) (empty : e.content = []) (b : Bytes) (rest : List Bytes) :
    ∃ s' : UntarStream Unit, s'.status = .header ∧ s'.tarEndCount = 0 ∧
      delivered ((machine setTarInfo).run s (e.header :: b :: rest)).2 =
        delivered ((machine setTarInfo).run s' rest).2 := by
  obtain ⟨info, name, left, next⟩ := e.setTarInfo_header s ready
  rw [empty, List.length_nil] at left
  refine ⟨{ s with status := .header, tarInfo := .clear }, rfl, fresh, ?_⟩
  rw [run_block _ s _ _ (fresh_open s fresh),
    feedBlock_header setTarInfo s _ (Or.inl ready) e.header_magic, next, List.nil_append,
    run_block _ _ _ _ (by simpa only [eof] using fresh_open s fresh),
    feedBlock_content_last setTarInfo _ b rfl (by simp [left])]
  simp only [left, List.take_zero, List.singleton_append, delivered, cleared]
  rw [groupCalls_last _ _ (by simp [WriteCall.isLast, left])]
  rfl

omit fresh in
theorem run_zeroBlocks (n : Nat) :
    ((machine setTarInfo).run s (List.replicate n zeroBlock)).2 = [] := by
  induction n generalizing s with
  | zero => rfl
  | succ n ih =>
    cases open_ : s.eof with
    | true => rw [run_eof _ s _ open_]
    | false =>
      rw [List.replicate_succ, run_block _ s _ _ open_,
        feedBlock_zeroBlock setTarInfo s (Or.inl ready)]
      exact ih { s with tarEndCount := s.tarEndCount + 1 } ready

theorem run_archive_iff_aligned (files : List RegularFile) :
    delivered ((machine setTarInfo).run s (archiveBlocks files)).2 = RegularFile.expected files ↔
      aligned files := by
  induction files using aligned.induct generalizing s with
  -- the end marks alone
  | case1 =>
    have silent : ((machine setTarInfo).run s (archiveBlocks [])).2 = [] :=
      run_zeroBlocks s ready 2
    rw [silent]
    exact iff_of_true rfl trivial
  -- the last file: an empty one takes an end mark for its content
  | case2 f =>
    refine iff_of_true ?_ trivial
    by_cases empty : f.content = []
    · obtain ⟨s', ready', _, same⟩ := run_empty s ready fresh f empty zeroBlock [zeroBlock]
      have silent : ((machine setTarInfo).run s' [zeroBlock]).2 = [] := run_zeroBlocks s' ready' 1
      have whole : archiveBlocks [f] = [f.header, zeroBlock, zeroBlock] := by
        rw [archiveBlocks_cons, empty, contentBlocks_nil]; rfl
      rw [whole, same, silent, ← List.append_nil [f],
        RegularFile.expected_empties [f] [] (by simpa using empty)]
      rfl
    · obtain ⟨s', ready', _, same⟩ := run_filled s ready fresh f empty _
        (mem_archiveBlocks_length [])
      have silent : ((machine setTarInfo).run s' (archiveBlocks [])).2 = [] :=
        run_zeroBlocks s' ready' 2
      rw [archiveBlocks_cons, same, silent, f.expected_cons [] empty]
      rfl
  -- a file with content is read, and the next one starts afresh
  | case3 f g files filled ih =>
    obtain ⟨s', ready', fresh', same⟩ := run_filled s ready fresh f filled _
      (mem_archiveBlocks_length (g :: files))
    rw [archiveBlocks_cons, same, f.expected_cons _ filled, List.cons.injEq,
      and_iff_right rfl, ih s' ready' fresh', aligned, if_pos filled]
  -- an empty file takes the header of the next file, which must then be empty, too
  | case4 f g files empty ih =>
    have nothing : f.content = [] := by simpa using empty
    obtain ⟨s', ready', fresh', same⟩ := run_empty s ready fresh f nothing g.header
      (contentBlocks g.content ++ archiveBlocks files)
    have skip : RegularFile.expected (f :: g :: files) = RegularFile.expected (g :: files) :=
      RegularFile.expected_empties [f] _ (by simpa using nothing)
    rw [archiveBlocks_cons, nothing, contentBlocks_nil, List.nil_append, archiveBlocks_cons, same,
      skip, aligned, if_neg empty]
    by_cases bare : g.content = []
    · have skip' : RegularFile.expected (g :: files) = RegularFile.expected files :=
        RegularFile.expected_empties [g] _ (by simpa using bare)
      rw [bare, contentBlocks_nil, List.nil_append, skip', ih s' ready' fresh', and_iff_right rfl]
    · have lost := header_lost g bare files 0 s' (idle_of_status (by simp [ready']))
      exact iff_of_false lost fun both => bare both.1

end ReadBack

open UntarStream in
/-- An archive of regular files reads back as the names and contents of its files exactly when its
empty files are aligned. -/
theorem untar_reads_back_iff_aligned (files : List RegularFile) :
    delivered (feed setTarInfo (UntarStream.init (), []) (encodeArchive files)).2 =
      RegularFile.expected files ↔ aligned files := by
  rw [← archiveBlocks_flatten, feed_flatten _ _ _ (mem_archiveBlocks_length files)]
  exact run_archive_iff_aligned _ rfl rfl files

open UntarStream in
/-- The file after an empty one is not read back: nothing at all is delivered. -/
theorem untar_loses_file_after_empty :
    delivered (feed setTarInfo (UntarStream.init (), [])
        (encodeArchive [emptyFile, oneByteFile])).2 = [] ∧
      RegularFile.expected [emptyFile, oneByteFile] = [(ascii "data", [7])] := by
  decide +kernel

end Zn
