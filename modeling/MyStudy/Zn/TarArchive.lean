import MyStudy.Zn.UntarNumber

/-!
# Archives of regular files

The ustar encoding of a list of files, the blocks it consists of, and what the calls of `on_write`
amount to when they are grouped by entry.
-/
namespace Zn

/-! ### Encoding -/

/-- The fields of a header the stream passes over: `mode` to `gid`, `mtime` and `chksum`,
`linkname`, and everything after the letters of the magic. -/
structure HeaderRest where
  owner : Bytes
  times : Bytes
  linkname : Bytes
  tail : Bytes
  owner_length : owner.length = 24
  times_length : times.length = 20
  linkname_length : linkname.length = 100
  tail_length : tail.length = 250

/-- Header fields of zeros. -/
def HeaderRest.blank : HeaderRest where
  owner := List.replicate 24 0
  times := List.replicate 20 0
  linkname := List.replicate 100 0
  tail := List.replicate 250 0
  owner_length := List.length_replicate
  times_length := List.length_replicate
  linkname_length := List.length_replicate
  tail_length := List.length_replicate

def headerBlock (name : Bytes) (size : Nat) (typeflag : UInt8) (rest : HeaderRest) : Bytes :=
  name ++ List.replicate (100 - name.length) 0 ++ rest.owner ++ (padded 8 11 size ++ [0]) ++
    rest.times ++ [typeflag] ++ rest.linkname ++ tmagic ++ rest.tail

theorem headerBlock_length (name : Bytes) (size : Nat) (typeflag : UInt8) (rest : HeaderRest)
    (fits : name.length ≤ 100) : (headerBlock name size typeflag rest).length = 512 := by
  simp only [headerBlock, List.length_append, List.length_replicate, padded_length,
    List.length_singleton, rest.owner_length, rest.times_length, rest.linkname_length,
    rest.tail_length]
  have : tmagic.length = 5 := by decide
  omega

theorem field_append (front mid back : Bytes) :
    TarHeader.field front.length mid.length (front ++ mid ++ back) = mid := by
  rw [TarHeader.field, List.append_assoc, List.drop_left, List.take_left]

section Fields

variable (name : Bytes) (size : Nat) (typeflag : UInt8) (rest : HeaderRest)
  (fits : name.length < 100)
include fits

theorem name_headerBlock (clean : 0 ∉ name) :
    TarHeader.name (headerBlock name size typeflag rest) = name := by
  -- a name of less than 100 bytes has a NUL right behind it
  have filler : List.replicate (100 - name.length) (0 : UInt8) =
      0 :: List.replicate (99 - name.length) 0 := by
    rw [← List.replicate_succ]; congr 1; omega
  simp only [TarHeader.name, headerBlock, filler, List.append_assoc, List.cons_append]
  exact cstr_terminated name _ clean

theorem size_headerBlock :
    TarHeader.size (headerBlock name size typeflag rest) = padded 8 11 size ++ [0] := by
  -- the fields before the size field fill 124 bytes
  have front : (name ++ List.replicate (100 - name.length) 0 ++ rest.owner).length = 124 := by
    simp only [List.length_append, List.length_replicate, rest.owner_length]; omega
  have := field_append (name ++ List.replicate (100 - name.length) 0 ++ rest.owner)
    (padded 8 11 size ++ [0])
    (rest.times ++ [typeflag] ++ rest.linkname ++ tmagic ++ rest.tail)
  rw [front] at this
  simpa only [TarHeader.size, headerBlock, List.length_append, padded_length,
    List.length_singleton, List.append_assoc] using this

theorem typeflag_headerBlock :
    TarHeader.typeflag (headerBlock name size typeflag rest) = typeflag := by
  -- 156 bytes come before the flag
  have front : (name ++ List.replicate (100 - name.length) 0 ++ rest.owner ++
      (padded 8 11 size ++ [0]) ++ rest.times).length = 156 := by
    simp only [List.length_append, List.length_replicate, rest.owner_length, padded_length,
      List.length_singleton, rest.times_length]
    omega
  have cut : headerBlock name size typeflag rest =
      (name ++ List.replicate (100 - name.length) 0 ++ rest.owner ++
        (padded 8 11 size ++ [0]) ++ rest.times) ++
      (typeflag :: (rest.linkname ++ tmagic ++ rest.tail)) := by
    simp only [headerBlock, List.append_assoc, List.cons_append, List.nil_append]
  rw [TarHeader.typeflag, cut, ← front, List.getD_eq_getElem?_getD,
    List.getElem?_append_right (Nat.le_refl _), Nat.sub_self]
  rfl

theorem magic_headerBlock :
    (TarHeader.magic (headerBlock name size typeflag rest)).take 5 = tmagic := by
  -- 257 bytes come before the magic
  have front : (name ++ List.replicate (100 - name.length) 0 ++ rest.owner ++
      (padded 8 11 size ++ [0]) ++ rest.times ++ [typeflag] ++ rest.linkname).length = 257 := by
    simp only [List.length_append, List.length_replicate, rest.owner_length, padded_length,
      List.length_singleton, rest.times_length, rest.linkname_length]
    omega
  have := field_append (name ++ List.replicate (100 - name.length) 0 ++ rest.owner ++
    (padded 8 11 size ++ [0]) ++ rest.times ++ [typeflag] ++ rest.linkname) tmagic rest.tail
  rw [front] at this
  rw [TarHeader.magic, TarHeader.field, List.take_take]
  exact this

end Fields

/-- Content padded with zeros to whole blocks. -/
def zeroPad (content : Bytes) : Bytes :=
  content ++ List.replicate ((tarBlockSize - content.length % tarBlockSize) % tarBlockSize) 0

theorem zeroPad_length (content : Bytes) :
    (zeroPad content).length = (content.length + 511) / 512 * 512 := by
  simp only [zeroPad, tarBlockSize, List.length_append, List.length_replicate]
  omega

def contentBlocks (content : Bytes) : List Bytes :=
  BlockMachine.blocks tarBlockSize (zeroPad content)

theorem contentBlocks_flatten (content : Bytes) :
    (contentBlocks content).flatten = zeroPad content :=
  BlockMachine.flatten_blocks_of_dvd tarBlockSize (by decide) _
    ⟨_, by rw [zeroPad_length, Nat.mul_comm]; rfl⟩

theorem contentBlocks_length (content : Bytes) :
    (contentBlocks content).length = (content.length + 511) / 512 := by
  rw [contentBlocks, BlockMachine.blocks_length, zeroPad_length]
  exact Nat.mul_div_cancel _ (by decide)

theorem contentBlocks_nil : contentBlocks [] = [] := by
  apply List.eq_nil_of_length_eq_zero
  rw [contentBlocks_length]
  rfl

theorem mem_contentBlocks_length (content block : Bytes) (member : block ∈ contentBlocks content) :
    block.length = tarBlockSize :=
  BlockMachine.mem_blocks_length tarBlockSize _ block member

/-- A regular file as an archive can hold it. -/
structure RegularFile where
  name : Bytes
  content : Bytes
  rest : HeaderRest
  name_length : 1 ≤ name.length ∧ name.length ≤ 99
  name_clean : 0 ∉ name
  content_length : content.length < 2 ^ 29

namespace RegularFile

def header (f : RegularFile) : Bytes := headerBlock f.name f.content.length regtype f.rest

def encode (f : RegularFile) : Bytes := f.header ++ zeroPad f.content

end RegularFile

def emptyFile : RegularFile := ⟨ascii "empty", [], .blank, by decide, by decide, by decide⟩

def oneByteFile : RegularFile := ⟨ascii "data", [7], .blank, by decide, by decide, by decide⟩

def zeroBlock : Bytes := List.replicate tarBlockSize 0

def encodeArchive (files : List RegularFile) : Bytes :=
  files.flatMap RegularFile.encode ++ zeroBlock ++ zeroBlock

def archiveBlocks (files : List RegularFile) : List Bytes :=
  files.flatMap (fun f => f.header :: contentBlocks f.content) ++ [zeroBlock, zeroBlock]

theorem archiveBlocks_cons (f : RegularFile) (files : List RegularFile) :
    archiveBlocks (f :: files) = f.header :: (contentBlocks f.content ++ archiveBlocks files) := by
  simp [archiveBlocks]

theorem mem_archiveBlocks_length (files : List RegularFile) :
    ∀ block ∈ archiveBlocks files, block.length = tarBlockSize := by
  have zero : zeroBlock.length = tarBlockSize := List.length_replicate
  induction files with
  | nil => simp [archiveBlocks, zero]
  | cons f files ih =>
    rw [archiveBlocks_cons]
    intro block member
    rcases List.mem_cons.mp member with rfl | later
    · exact headerBlock_length _ _ _ _ (by have := f.name_length; omega)
    · rcases List.mem_append.mp later with body | rest
      · exact mem_contentBlocks_length _ block body
      · exact ih block rest

theorem archiveBlocks_flatten (files : List RegularFile) :
    (archiveBlocks files).flatten = encodeArchive files := by
  induction files with
  | nil => simp [archiveBlocks, encodeArchive]
  | cons f files ih =>
    rw [archiveBlocks_cons, List.flatten_cons, List.flatten_append, ih, contentBlocks_flatten]
    simp only [encodeArchive, List.flatMap_cons, RegularFile.encode, List.append_assoc]

/-! ### Calls grouped by entry -/

/-- The call that completes its entry. -/
def WriteCall.isLast (call : WriteCall) : Bool := call.content.length = call.info.bytesLeft

/-- Name and content of the entries a sequence of calls writes. -/
def groupCalls : List WriteCall → List (Bytes × Bytes)
  | [] => []
  | call :: calls =>
    match call.isLast, groupCalls calls with
    -- a call that does not complete its entry goes with the next one
    | false, (_, more) :: groups => (call.info.name, call.content ++ more) :: groups
    | _, groups => (call.info.name, call.content) :: groups

/-- The entries that have content. -/
def delivered (calls : List WriteCall) : List (Bytes × Bytes) :=
  (groupCalls calls).filter fun entry => entry.2 ≠ []

def RegularFile.expected (files : List RegularFile) : List (Bytes × Bytes) :=
  (files.map fun f => (f.name, f.content)).filter fun entry => entry.2 ≠ []

theorem groupCalls_last (call : WriteCall) (calls : List WriteCall) (last : call.isLast = true) :
    groupCalls (call :: calls) = (call.info.name, call.content) :: groupCalls calls := by
  simp [groupCalls, last]

theorem groupCalls_more (call : WriteCall) (calls : List WriteCall) (name more : Bytes)
    (groups : List (Bytes × Bytes)) (last : call.isLast = false)
    (next : groupCalls calls = (name, more) :: groups) :
    groupCalls (call :: calls) = (call.info.name, call.content ++ more) :: groups := by
  simp [groupCalls, last, next]

end Zn
