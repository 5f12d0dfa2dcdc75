import MyStudy.Zn.TarArchive

/-!
# The content of an entry

What the stream does from a header on until the blocks its size field announces are used up.
-/
namespace Zn

namespace UntarStream

variable {ρ : Type} (set : SetTarInfo ρ) (s : UntarStream ρ)

/-- The stream after the last block of an entry. -/
def cleared : UntarStream ρ := { s with tarInfo := .clear, status := .header }

theorem machine_size : (machine set).size = tarBlockSize := rfl

theorem run_eof (bs : List Bytes) (eof : s.eof = true) : (machine set).run s bs = (s, []) :=
  (machine set).run_halted s bs eof

theorem run_block (b : Bytes) (bs : List Bytes) (open_ : s.eof = false) :
    (machine set).run s (b :: bs) =
      (((machine set).run (feedBlock set s b).1 bs).1,
        (feedBlock set s b).2 ++ ((machine set).run (feedBlock set s b).1 bs).2) :=
  (machine set).run_cons s b bs open_

/-- Whole blocks fed at once are run through one by one. -/
theorem feed_flatten (bs : List Bytes) (sizes : ∀ b ∈ bs, b.length = tarBlockSize) :
    (feed set (s, []) bs.flatten).2 = ((machine set).run s bs).2 := by
  have whole := ((machine set).feedAll_eq_run s [bs.flatten]).2.1
  rw [← feedAll_eq_machine, List.flatten_singleton, machine_size,
    BlockMachine.blocks_flatten tarBlockSize (by decide) bs sizes] at whole
  simpa only [feedAll, List.append_nil] using whole

theorem feedBlock_content_more (b : Bytes) (busy : s.status = .content)
    (more : tarBlockSize < s.tarInfo.bytesLeft) :
    feedBlock set s b =
      ({ s with tarInfo := { s.tarInfo with bytesLeft := s.tarInfo.bytesLeft - tarBlockSize } },
        [⟨s.tarInfo, b⟩]) := by
  simp only [feedBlock, busy]
  exact if_pos more

theorem feedBlock_content_last (b : Bytes) (busy : s.status = .content)
    (last : s.tarInfo.bytesLeft ≤ tarBlockSize) :
    feedBlock set s b = (s.cleared, [⟨s.tarInfo, b.take s.tarInfo.bytesLeft⟩]) := by
  simp only [feedBlock, busy]
  exact if_neg (by omega)

theorem feedBlock_header (b : Bytes) (ready : s.status = .header ∨ s.status = .longnameHeader)
    (magic : (TarHeader.magic b).take 5 = tmagic) : feedBlock set s b = ((set s b).1, []) := by
  -- the first letter of the magic rules out an end mark
  have first : (TarHeader.magic b).head? ≠ some 0 := by
    intro zero
    cases h : TarHeader.magic b with
    | nil => rw [h] at zero; simp at zero
    | cons c cs =>
      rw [h, List.head?_cons, Option.some.injEq] at zero
      rw [h, zero, List.take_succ_cons] at magic
      have : tmagic = 'u'.toUInt8 :: tmagic.drop 1 := by decide
      rw [this, List.cons.injEq] at magic
      exact absurd magic.1 (by decide)
  rcases ready with status | status <;> simp only [feedBlock, status, first, false_and, if_false]

theorem feedBlock_zeroBlock (ready : s.status = .header ∨ s.status = .longnameHeader) :
    feedBlock set s zeroBlock = ({ s with tarEndCount := s.tarEndCount + 1 }, []) := by
  have first : (TarHeader.magic zeroBlock).head? = some 0 := by
    simp only [TarHeader.magic, TarHeader.field, zeroBlock, tarBlockSize, List.drop_replicate,
      List.take_replicate, Nat.reduceSub, Nat.reduceLeDiff, Nat.min_eq_left]
    rfl
  have zero : allZero zeroBlock = true := by
    rw [allZero, List.all_eq_true]
    intro c member
    simpa using List.eq_of_mem_replicate member
  rcases ready with status | status <;> simp [feedBlock, status, first, zero]

/-- An entry with content is one group of calls; the blocks after it go to the cleared stream. An
archive cut off inside the entry leaves the group unfinished. -/
theorem groupCalls_content (post : List Bytes) (sizes : ∀ b ∈ post, b.length = tarBlockSize)
    (nonempty : post ≠ []) (busy : s.status = .content) (open_ : s.eof = false)
    (pos : 0 < s.tarInfo.bytesLeft) :
    groupCalls ((machine set).run s post).2 =
      (s.tarInfo.name, post.flatten.take s.tarInfo.bytesLeft) ::
        groupCalls ((machine set).run s.cleared
          (post.drop ((s.tarInfo.bytesLeft + 511) / 512))).2 := by
  induction post generalizing s with
  | nil => exact absurd rfl nonempty
  | cons b bs ih =>
    have block : b.length = 512 := sizes b (by simp)
    rw [run_block set s b bs open_]
    by_cases more : tarBlockSize < s.tarInfo.bytesLeft
    -- a whole block of the entry, and more to come
    · have large : 512 < s.tarInfo.bytesLeft := more
      have notLast : (WriteCall.mk s.tarInfo b).isLast = false := by
        simp only [WriteCall.isLast, block, decide_eq_false_iff_not]; omega
      have count : (s.tarInfo.bytesLeft + 511) / 512 =
          (s.tarInfo.bytesLeft - tarBlockSize + 511) / 512 + 1 := by
        rw [tarBlockSize]; omega
      have taken : (b :: bs).flatten.take s.tarInfo.bytesLeft =
          b ++ bs.flatten.take (s.tarInfo.bytesLeft - tarBlockSize) := by
        rw [List.flatten_cons, List.take_append, block, List.take_of_length_le (by omega)]
        rfl
      rw [feedBlock_content_more set s b busy more, List.singleton_append, count, taken,
        List.drop_succ_cons]
      cases bs with
      -- the archive may be cut off here
      | nil => simp [groupCalls, notLast]
      | cons c cs =>
        have next := ih
          { s with tarInfo := { s.tarInfo with bytesLeft := s.tarInfo.bytesLeft - tarBlockSize } }
          (fun x member => sizes x (List.mem_cons_of_mem b member)) (by simp) busy
          (by simpa only [eof] using open_) (Nat.sub_pos_of_lt more)
        simp only [cleared] at next ⊢
        rw [groupCalls_more _ _ _ _ _ notLast next]
    -- the last block, cut to what is left of the entry
    · have small : s.tarInfo.bytesLeft ≤ 512 := by simpa [tarBlockSize] using more
      have last : (WriteCall.mk s.tarInfo (b.take s.tarInfo.bytesLeft)).isLast = true := by
        simp only [WriteCall.isLast, List.length_take, block, decide_eq_true_eq]; omega
      have count : (s.tarInfo.bytesLeft + 511) / 512 = 1 := by omega
      have taken : (b :: bs).flatten.take s.tarInfo.bytesLeft = b.take s.tarInfo.bytesLeft := by
        rw [List.flatten_cons, List.take_append_of_le_length (by omega)]
      rw [feedBlock_content_last set s b busy small, List.singleton_append, count, taken,
        groupCalls_last _ _ last]
      rfl

end UntarStream

/-! ### Headers of regular files -/

namespace RegularFile

theorem header_length (f : RegularFile) : f.header.length = tarBlockSize :=
  headerBlock_length _ _ _ _ (by have := f.name_length; omega)

theorem header_magic (f : RegularFile) : (TarHeader.magic f.header).take 5 = tmagic :=
  magic_headerBlock _ _ _ _ (by have := f.name_length; omega)

theorem header_size (f : RegularFile) :
    base8to10 (ascii2uint (TarHeader.size f.header)) = f.content.length := by
  rw [header, size_headerBlock _ _ _ _ (by have := f.name_length; omega)]
  exact size_field_roundtrip _ f.content_length

/-- What the plain stream makes of the header of a regular file. -/
theorem setTarInfo_header {ρ : Type} (f : RegularFile) (s : UntarStream ρ)
    (ready : s.status = .header) :
    ∃ info : TarInfo, info.name = f.name ∧ info.bytesLeft = f.content.length ∧
      (UntarStream.setTarInfo s f.header).1 = { s with status := .content, tarInfo := info } := by
  have fits : f.name.length < 100 := by have := f.name_length; omega
  have typeflag : TarHeader.typeflag f.header = regtype := typeflag_headerBlock _ _ _ _ fits
  have name : TarHeader.name f.header = f.name := name_headerBlock _ _ _ _ fits f.name_clean
  simp only [UntarStream.setTarInfo, f.header_magic, f.header_size, typeflag, ready, name,
    ne_eq, not_true_eq_false, if_false, if_true]
  exact ⟨_, rfl, rfl, rfl⟩

end RegularFile

end Zn
