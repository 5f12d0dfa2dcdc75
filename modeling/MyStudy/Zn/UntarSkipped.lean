import MyStudy.Zn.UntarContent

/-!
# Entries the stream does not extract

The stream has no state for the data of an entry it does not extract: every block of it is looked
at as a header. Inserting such an entry goes unnoticed as long as none of its blocks can be taken
for a header or an end mark and its long name is gone before the next file.
-/
namespace Zn

/-- The size field as the stream reads it. -/
def headerSize (header : Bytes) : Nat := base8to10 (ascii2uint (TarHeader.size header))

/-- A block that opens a file or a long name. -/
def opens (b : Bytes) : Bool :=
  (TarHeader.magic b).take 5 = tmagic &&
    (TarHeader.typeflag b = regtype || TarHeader.typeflag b = lftype)

/-- A block that neither opens an entry nor ends the archive. -/
def inert (b : Bytes) : Bool := !opens b && !allZero b

/-- The record of a long name: its header and the blocks of the name. -/
structure LongName where
  header : Bytes
  blocks : List Bytes
  header_length : header.length = tarBlockSize
  header_magic : (TarHeader.magic header).take 5 = tmagic
  header_typeflag : TarHeader.typeflag header = lftype
  blocks_length : ∀ b ∈ blocks, b.length = tarBlockSize
  announced : blocks.length = (headerSize header + 511) / 512
  nonempty : blocks ≠ []

/-- The name as the stream puts it together: whole blocks, and the last one as a C string. -/
def joinName : List Bytes → Bytes
  | [] => []
  | [b] => cstr b
  | b :: bs => b ++ joinName bs

def LongName.name (record : LongName) : Bytes := joinName record.blocks

/-- An entry that is neither a file nor a long name, with its data blocks. The stream never looks
at the size it announces. -/
structure SkippedEntry where
  longName : Option LongName
  header : Bytes
  data : List Bytes
  header_length : header.length = tarBlockSize
  header_inert : inert header = true
  data_length : ∀ b ∈ data, b.length = tarBlockSize

namespace SkippedEntry

def nameBlocks (x : SkippedEntry) : List Bytes :=
  match x.longName with
  | some record => record.header :: record.blocks
  | none => []

def blocks (x : SkippedEntry) : List Bytes := x.nameBlocks ++ x.header :: x.data

end SkippedEntry

/-- The original archive block by block, its end mark included, and the entries inserted between
its blocks. -/
inductive Item where
  | block (b : Bytes) (whole : b.length = tarBlockSize)
  | skipped (x : SkippedEntry)

theorem SkippedEntry.mem_blocks_length (x : SkippedEntry) :
    ∀ b ∈ x.blocks, b.length = tarBlockSize := by
  intro b member
  rw [SkippedEntry.blocks, List.mem_append, List.mem_cons] at member
  rcases member with name | rfl | data
  · rw [SkippedEntry.nameBlocks] at name
    split at name
    next record _ =>
      rcases List.mem_cons.mp name with rfl | later
      · exact record.header_length
      · exact record.blocks_length b later
    · simp at name
  · exact x.header_length
  · exact x.data_length b data

def extended : List Item → List Bytes
  | [] => []
  | .block b _ :: items => b :: extended items
  | .skipped x :: items => x.blocks ++ extended items

def original : List Item → List Bytes
  | [] => []
  | .block b _ :: items => b :: original items
  | .skipped _ :: items => original items

theorem mem_extended_length (items : List Item) :
    ∀ b ∈ extended items, b.length = tarBlockSize := by
  induction items with
  | nil => simp [extended]
  | cons item items ih =>
    cases item with
    | block b whole => simpa [extended, whole] using ih
    | skipped x =>
      intro b member
      rcases List.mem_append.mp member with inserted | later
      · exact x.mem_blocks_length b inserted
      · exact ih b later

theorem mem_original_length (items : List Item) :
    ∀ b ∈ original items, b.length = tarBlockSize := by
  induction items with
  | nil => simp [original]
  | cons item items ih =>
    cases item with
    | block b whole => simpa [original, whole] using ih
    | skipped x => exact ih

namespace UntarStream

variable {ρ : Type}

/-- The stream takes the next block for a header. -/
def expectsHeader (s : UntarStream ρ) : Bool := s.status = .header || s.status = .longnameHeader

/-- The name the stream gives to the file of a header. -/
def nameFor (s : UntarStream ρ) (header : Bytes) : Bytes :=
  if s.status = .header then TarHeader.name header else s.tarInfo.name

end UntarStream

open UntarStream

/-- The insertions the stream does not notice, walking the original archive with the stream that
reads it: an entry is inserted where a header is expected and its data is inert; `leaked` is the
long name it leaves behind, which must be the name of the next file unless the next file has a
long name of its own. -/
def unnoticed (s : UntarStream Unit) (leaked : Option Bytes) : List Item → Bool
  | [] => true
  | .block b _ :: items =>
    s.eof ||
      if s.expectsHeader && opens b then
        (leaked.all fun name => TarHeader.typeflag b = lftype || name = s.nameFor b) &&
          unnoticed (feedBlock setTarInfo s b).1 none items
      else unnoticed (feedBlock setTarInfo s b).1 leaked items
  | .skipped x :: items =>
    s.eof ||
      (s.expectsHeader && x.data.all inert &&
        unnoticed s ((x.longName.map LongName.name).or leaked) items)

/-! ### Headers block by block -/

namespace UntarStream

variable (s : UntarStream Unit) (b : Bytes)

theorem opens_iff : opens b = true ↔ (TarHeader.magic b).take 5 = tmagic ∧
    (TarHeader.typeflag b = regtype ∨ TarHeader.typeflag b = lftype) := by
  simp [opens]

theorem status_of_expectsHeader (expects : s.expectsHeader = true) :
    s.status = .header ∨ s.status = .longnameHeader := by
  simpa [expectsHeader] using expects

theorem feedBlock_file (expects : s.expectsHeader = true) (opening : opens b = true)
    (file : TarHeader.typeflag b = regtype) :
    feedBlock setTarInfo s b =
      ({ s with
          status := .content
          tarInfo := ⟨s.nameFor b, headerSize b, headerSize b, ascii2uint (TarHeader.mtime b),
            TarHeader.gname b⟩ }, []) := by
  have magic := ((opens_iff b).mp opening).1
  rw [feedBlock_header setTarInfo s b (status_of_expectsHeader s expects) magic]
  simp only [setTarInfo, magic, file, ne_eq, not_true_eq_false, if_false, if_true, nameFor,
    headerSize]

theorem feedBlock_longname (expects : s.expectsHeader = true) (opening : opens b = true)
    (long : TarHeader.typeflag b = lftype) :
    feedBlock setTarInfo s b =
      ({ s with
          status := .longname
          tarInfo := { s.tarInfo with
            name := [], size := headerSize b, bytesLeft := headerSize b } }, []) := by
  have magic := ((opens_iff b).mp opening).1
  have other : lftype ≠ regtype := by decide
  rw [feedBlock_header setTarInfo s b (status_of_expectsHeader s expects) magic]
  simp only [setTarInfo, magic, long, other, ne_eq, not_true_eq_false, if_false, if_true,
    headerSize]

/-- What is left of a stream that expects a header after a block that does not open anything. -/
theorem feedBlock_rejected (expects : s.expectsHeader = true) (closed : opens b = false) :
    ∃ info : TarInfo, info.name = s.tarInfo.name ∧
      feedBlock setTarInfo s b =
        ({ s with
            tarInfo := info
            tarEndCount := s.tarEndCount +
              if (TarHeader.magic b).head? = some 0 ∧ allZero b then 1 else 0 }, []) := by
  -- in both states the block counts as an end mark or goes to `_set_tar_info`
  have expand : feedBlock setTarInfo s b =
      if (TarHeader.magic b).head? = some 0 ∧ allZero b then
        ({ s with tarEndCount := s.tarEndCount + 1 }, [])
      else ((setTarInfo s b).1, []) := by
    rcases status_of_expectsHeader s expects with status | status <;> simp only [feedBlock, status]
  rw [expand]
  by_cases zero : (TarHeader.magic b).head? = some 0 ∧ allZero b
  · exact ⟨s.tarInfo, rfl, by rw [if_pos zero, if_pos zero]⟩
  · rw [if_neg zero, if_neg zero]
    by_cases magic : (TarHeader.magic b).take 5 = tmagic
    -- a header of another type leaves its size behind
    · have neither : TarHeader.typeflag b ≠ regtype ∧ TarHeader.typeflag b ≠ lftype := by
        simpa [opens, magic] using closed
      refine ⟨{ s.tarInfo with size := headerSize b, bytesLeft := headerSize b }, rfl, ?_⟩
      simp only [setTarInfo, magic, neither.1, neither.2, ne_eq, not_true_eq_false, if_false,
        headerSize, Nat.add_zero]
    · refine ⟨s.tarInfo, rfl, ?_⟩
      simp only [setTarInfo, magic, ne_eq, not_false_eq_true, if_true, Nat.add_zero]

/-- Blocks that are inert leave the stream expecting a header, with the name it has. -/
theorem run_inert (blocks : List Bytes) (expects : s.expectsHeader = true)
    (open_ : s.eof = false) (quiet : blocks.all inert = true) :
    ∃ info : TarInfo, info.name = s.tarInfo.name ∧
      (machine setTarInfo).run s blocks = ({ s with tarInfo := info }, []) := by
  induction blocks generalizing s with
  | nil => exact ⟨s.tarInfo, rfl, rfl⟩
  | cons b bs ih =>
    rw [List.all_cons, Bool.and_eq_true] at quiet
    -- neither opened nor counted, so the stream still expects a header
    have still : opens b = false ∧ allZero b = false := by simpa [inert] using quiet.1
    obtain ⟨info, same, step⟩ := feedBlock_rejected s b expects still.1
    simp only [still.2, Bool.false_eq_true, and_false, if_false, Nat.add_zero] at step
    obtain ⟨info', same', rest⟩ := ih { s with tarInfo := info }
      (by simpa only [expectsHeader] using expects) (by simpa only [eof] using open_) quiet.2
    refine ⟨info', same'.trans same, ?_⟩
    rw [run_block _ s b bs open_, step, rest, List.nil_append]

/-- The blocks of a long name. -/
theorem run_joinName {σ : Type} (set : SetTarInfo σ) (s : UntarStream σ) (blocks : List Bytes)
    (sizes : ∀ b ∈ blocks, b.length = tarBlockSize) (nonempty : blocks ≠ [])
    (long : s.status = .longname) (open_ : s.eof = false)
    (announced : blocks.length = (s.tarInfo.bytesLeft + 511) / 512) :
    ∃ info : TarInfo, info.name = s.tarInfo.name ++ joinName blocks ∧
      (machine set).run s blocks =
        ({ s with status := .longnameHeader, tarInfo := info }, []) := by
  induction blocks generalizing s with
  | nil => exact absurd rfl nonempty
  | cons b bs ih =>
    rw [run_block _ s b bs open_]
    cases bs with
    | nil =>
      -- the last block of the name
      have last : ¬ s.tarInfo.bytesLeft > tarBlockSize := by
        rw [List.length_singleton] at announced
        rw [tarBlockSize]
        omega
      simp only [feedBlock, long, last, if_false, BlockMachine.run_nil, List.append_nil, joinName]
      exact ⟨_, rfl, rfl⟩
    | cons c cs =>
      -- one of several blocks
      have more : s.tarInfo.bytesLeft > tarBlockSize := by
        rw [List.length_cons, List.length_cons] at announced
        rw [tarBlockSize]
        omega
      simp only [feedBlock, long, more, if_true, List.nil_append]
      obtain ⟨info, name, rest⟩ := ih
        { s with tarInfo := { s.tarInfo with
            name := s.tarInfo.name ++ b
            bytesLeft := s.tarInfo.bytesLeft - tarBlockSize } }
        (fun x member => sizes x (List.mem_cons_of_mem b member)) (by simp) long
        (by simpa only [eof] using open_) (by
          simp only [List.length_cons, tarBlockSize] at announced more ⊢
          omega)
      refine ⟨info, ?_, ?_⟩
      · rw [name, List.append_assoc]; rfl
      · simpa only [long] using rest

end UntarStream

/-! ### The two streams side by side -/

/-- How the stream `t` that reads the extended archive stands to the stream `s` that reads the
original one: they agree on everything a later step reads, or `t` has the name `leaked` pending. -/
inductive Follows (s t : UntarStream Unit) : Option Bytes → Prop where
  | header (here : s.status = .header) (there : t.status = .header) : Follows s t none
  | content (here : s.status = .content) (there : t.status = .content)
      (info : s.tarInfo = t.tarInfo) : Follows s t none
  | longname (here : s.status = .longname) (there : t.status = .longname)
      (name : s.tarInfo.name = t.tarInfo.name)
      (left : s.tarInfo.bytesLeft = t.tarInfo.bytesLeft) : Follows s t none
  | longnameHeader (here : s.status = .longnameHeader) (there : t.status = .longnameHeader)
      (name : s.tarInfo.name = t.tarInfo.name) : Follows s t none
  | leak (name : Bytes) (here : s.expectsHeader = true) (there : t.status = .longnameHeader)
      (pending : t.tarInfo.name = name) : Follows s t (some name)

namespace Follows

theorem refl (s : UntarStream Unit) : Follows s s none := by
  cases status : s.status with
  | header => exact .header status status
  | content => exact .content status status rfl
  | longname => exact .longname status status rfl rfl
  | longnameHeader => exact .longnameHeader status status rfl

variable {s t : UntarStream Unit} {leaked : Option Bytes}

theorem expectsHeader (follows : Follows s t leaked) : s.expectsHeader = t.expectsHeader := by
  cases follows with
  | header here there => simp [UntarStream.expectsHeader, here, there]
  | content here there => simp [UntarStream.expectsHeader, here, there]
  | longname here there => simp [UntarStream.expectsHeader, here, there]
  | longnameHeader here there => simp [UntarStream.expectsHeader, here, there]
  | leak name here there => rw [here]; simp [UntarStream.expectsHeader, there]

/-- Where a header is expected, only the status and the name of `t` matter. -/
theorem of_expectsHeader (follows : Follows s t leaked) (expects : s.expectsHeader = true)
    (s' t' : UntarStream Unit) (here : s'.status = s.status)
    (sameName : s'.tarInfo.name = s.tarInfo.name) (there : t'.status = t.status)
    (sameName' : t'.tarInfo.name = t.tarInfo.name) : Follows s' t' leaked := by
  cases follows with
  | header h h' => exact .header (here.trans h) (there.trans h')
  | content h => simp [UntarStream.expectsHeader, h] at expects
  | longname h => simp [UntarStream.expectsHeader, h] at expects
  | longnameHeader h h' name =>
    exact .longnameHeader (here.trans h) (there.trans h') (by rw [sameName, sameName', name])
  | leak name h h' pending =>
    refine .leak name ?_ (there.trans h') (sameName'.trans pending)
    rw [UntarStream.expectsHeader, here]
    exact h

/-- Both take the same name for a file, unless a leaked name is used. -/
theorem nameFor_eq (follows : Follows s t leaked) (expects : s.expectsHeader = true) (b : Bytes)
    (own : ∀ name, leaked = some name → name = s.nameFor b) : s.nameFor b = t.nameFor b := by
  cases follows with
  | header here there => simp [UntarStream.nameFor, here, there]
  | content here => simp [UntarStream.expectsHeader, here] at expects
  | longname here => simp [UntarStream.expectsHeader, here] at expects
  | longnameHeader here there name => simp [UntarStream.nameFor, here, there, name]
  | leak name here there pending =>
    rw [← own name rfl, UntarStream.nameFor, there, if_neg (by simp), pending]

/-- A block of the original archive is read alike, and what was leaked stays or is used up. -/
theorem block (follows : Follows s t leaked) (count : s.tarEndCount = t.tarEndCount) (b : Bytes)
    (ok : s.expectsHeader = true → opens b = true →
      ∀ name, leaked = some name → TarHeader.typeflag b = lftype ∨ name = s.nameFor b) :
    (feedBlock setTarInfo s b).2 = (feedBlock setTarInfo t b).2 ∧
    (feedBlock setTarInfo s b).1.tarEndCount = (feedBlock setTarInfo t b).1.tarEndCount ∧
    Follows (feedBlock setTarInfo s b).1 (feedBlock setTarInfo t b).1
      (if s.expectsHeader && opens b then none else leaked) := by
  cases expects : s.expectsHeader with
  | true =>
    -- both expect a header: the block opens an entry for both or for neither
    have expects' : t.expectsHeader = true := follows.expectsHeader ▸ expects
    cases opening : opens b with
    | true =>
      rw [Bool.and_self, if_pos rfl]
      rcases ((opens_iff b).mp opening).2 with file | long
      -- a leaked name has to be the name of the file, as no other long name comes first
      · have sameName := follows.nameFor_eq expects b fun name pending =>
          (ok expects opening name pending).resolve_left fun long =>
            absurd (long.symm.trans file) (by decide)
        rw [feedBlock_file s b expects opening file, feedBlock_file t b expects' opening file,
          sameName]
        exact ⟨rfl, count, .content rfl rfl rfl⟩
      · rw [feedBlock_longname s b expects opening long,
          feedBlock_longname t b expects' opening long]
        exact ⟨rfl, count, .longname rfl rfl rfl rfl⟩
    | false =>
      obtain ⟨info, name, step⟩ := feedBlock_rejected s b expects opening
      obtain ⟨info', name', step'⟩ := feedBlock_rejected t b expects' opening
      rw [step, step', Bool.and_false, if_neg Bool.false_ne_true]
      exact ⟨rfl, by rw [count], follows.of_expectsHeader expects _ _ rfl name rfl name'⟩
  | false =>
    rw [Bool.false_and, if_neg Bool.false_ne_true]
    cases follows with
    | header here => simp [UntarStream.expectsHeader, here] at expects
    | longnameHeader here => simp [UntarStream.expectsHeader, here] at expects
    | leak name here => rw [here] at expects; exact absurd expects (by decide)
    | content here there info =>
      -- within an entry they agree on everything
      have whole : s = t := by
        cases s
        cases t
        simp_all
      rw [whole]
      exact ⟨rfl, rfl, .refl _⟩
    | longname here there name left =>
      simp only [feedBlock, here, there, name, left]
      split
      · exact ⟨rfl, count, .longname rfl rfl rfl rfl⟩
      · exact ⟨rfl, count, .longnameHeader rfl rfl rfl⟩

/-- An inserted entry is read without a call, and leaks its long name if it has one. -/
theorem skipped (follows : Follows s t leaked) (expects : s.expectsHeader = true)
    (open_ : t.eof = false) (x : SkippedEntry) (quiet : x.data.all inert = true) :
    ∃ t' : UntarStream Unit, (machine setTarInfo).run t x.blocks = (t', []) ∧
      t'.tarEndCount = t.tarEndCount ∧
      Follows s t' ((x.longName.map LongName.name).or leaked) := by
  have expects' : t.expectsHeader = true := follows.expectsHeader ▸ expects
  -- the header of the entry and its data are inert alike
  have rest : (x.header :: x.data).all inert = true := by
    rw [List.all_cons, x.header_inert, quiet]; rfl
  cases record : x.longName with
  | none =>
    obtain ⟨info, name, run⟩ := run_inert t _ expects' open_ rest
    refine ⟨{ t with tarInfo := info }, ?_, rfl,
      follows.of_expectsHeader expects _ _ rfl rfl rfl name⟩
    simp only [SkippedEntry.blocks, SkippedEntry.nameBlocks, record, List.nil_append, run]
  | some l =>
    have opening : opens l.header = true :=
      (opens_iff _).mpr ⟨l.header_magic, Or.inr l.header_typeflag⟩
    obtain ⟨info, name, names⟩ := run_joinName setTarInfo
      (feedBlock setTarInfo t l.header).1 l.blocks l.blocks_length l.nonempty
      (by rw [feedBlock_longname t _ expects' opening l.header_typeflag])
      (by rw [feedBlock_longname t _ expects' opening l.header_typeflag]; exact open_)
      (by rw [feedBlock_longname t _ expects' opening l.header_typeflag]; simpa only
        using l.announced)
    rw [feedBlock_longname t _ expects' opening l.header_typeflag] at name names
    obtain ⟨info', name', run⟩ := run_inert
      { t with status := .longnameHeader, tarInfo := info } _ rfl
      (by simpa only [eof] using open_) rest
    refine ⟨{ t with status := .longnameHeader, tarInfo := info' }, ?_, rfl,
      .leak _ expects rfl (name'.trans name)⟩
    rw [SkippedEntry.blocks, SkippedEntry.nameBlocks, record, List.cons_append,
      run_block _ t _ _ open_, feedBlock_longname t _ expects' opening l.header_typeflag,
      BlockMachine.run_append, names, run]
    rfl

end Follows

theorem run_unnoticed (items : List Item) (s t : UntarStream Unit) (leaked : Option Bytes)
    (count : s.tarEndCount = t.tarEndCount) (follows : Follows s t leaked)
    (quiet : unnoticed s leaked items = true) :
    ((machine setTarInfo).run t (extended items)).2 =
      ((machine setTarInfo).run s (original items)).2 := by
  induction items generalizing s t leaked with
  | nil => rfl
  | cons item items ih =>
    cases open_ : s.eof with
    | true => rw [run_eof _ s _ open_, run_eof _ t _ (by rw [eof, ← count]; exact open_)]
    | false =>
      have open_' : t.eof = false := by rw [eof, ← count]; exact open_
      cases item with
      | block b whole =>
        rw [unnoticed, open_, Bool.false_or] at quiet
        -- the same block for both streams
        have alike := follows.block count b
        rw [extended, original, run_block _ s b _ open_, run_block _ t b _ open_']
        cases opening : s.expectsHeader && opens b with
        | true =>
          rw [opening, if_pos rfl, Bool.and_eq_true] at quiet
          obtain ⟨calls, count', follows'⟩ := alike fun _ _ name pending => by
            simpa [pending] using quiet.1
          rw [opening, if_pos rfl] at follows'
          rw [calls, ih _ _ none count' follows' quiet.2]
        | false =>
          rw [opening, if_neg Bool.false_ne_true] at quiet
          obtain ⟨calls, count', follows'⟩ := alike fun expects opens' => by
            rw [expects, opens'] at opening; exact absurd opening (by decide)
          rw [opening, if_neg Bool.false_ne_true] at follows'
          rw [calls, ih _ _ leaked count' follows' quiet]
      | skipped x =>
        rw [unnoticed, open_, Bool.false_or, Bool.and_eq_true, Bool.and_eq_true] at quiet
        -- only the stream of the extended archive reads the entry
        obtain ⟨⟨expects, data⟩, later⟩ := quiet
        obtain ⟨t', run, same, follows'⟩ := follows.skipped expects open_' x data
        rw [extended, original, BlockMachine.run_append, run, List.nil_append]
        exact ih s t' _ (count.trans same.symm) follows' later

end Zn
