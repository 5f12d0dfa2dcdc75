import MyStudy.Lib.BlockMachine
import MyStudy.Zn.TarInternal
import MyStudy.Zn.UntarUtils

/-!
# The tar stream

`zn_untar_stream` and `zn_zimbra_untar_stream`. `on_write` is the stream's output: the model
records each call with the `zn_tar_info` and the content it is given. The fields of a derived
class stand in `derived`, and its virtual `_set_tar_info` is a parameter of `feed`.
-/
namespace Zn

/-! ### Numbers of the header -/

/-- `istringstream >> unsigned int`: blanks, a sign, digits. No digits give 0, too large a number
gives the largest one, and a negative one wraps. -/
def extractUnsigned (text : Bytes) : Nat :=
  let unpadded := text.dropWhile fun c => c = 32 || (9 ≤ c && c ≤ 13)
  let signed := unpadded.head? = some '-'.toUInt8
  let unsigned := if signed || unpadded.head? = some '+'.toUInt8 then unpadded.drop 1 else unpadded
  let value := numeral 10 (unsigned.takeWhile isDigit)
  -- out of range, also below zero: the largest number
  if 2 ^ 32 ≤ value then 2 ^ 32 - 1
  else if signed then (2 ^ 32 - value) % 2 ^ 32
  else value

def ascii2uint (asciiNumber : Bytes) : Nat :=
  -- leading zeros become blanks, then every blank goes
  let blanked := (asciiNumber.takeWhile (· = '0'.toUInt8)).map (fun _ => ' '.toUInt8) ++
    asciiNumber.dropWhile (· = '0'.toUInt8)
  extractUnsigned (blanked.filter (· ≠ ' '.toUInt8))

/-- The loop of `base8to10`. `pow` and the sum stay far below 2^53 and 2^32, so the arithmetic in
`double` and `unsigned int` is exact. -/
def base8to10Loop : Nat → Nat → Nat → Nat
  | 0, _, _ => 0
  | rounds + 1, level, num =>
    if num = 0 then 0 else num % 10 * 8 ^ level + base8to10Loop rounds (level + 1) (num / 10)

/-- An `unsigned int` has at most ten decimal digits, one for each round. -/
def base8to10 (num : Nat) : Nat := base8to10Loop 10 0 num

def allZero (buf : Bytes) : Bool := buf.all (· = 0)

/-! ### `zn_untar_stream` -/

structure TarInfo where
  name : Bytes
  size : Nat
  bytesLeft : Nat
  mtime : Nat
  gname : Bytes
  deriving DecidableEq, Repr

def TarInfo.clear : TarInfo := ⟨[], 0, 0, 0, []⟩

inductive TarStatus where
  | header
  | content
  | longname
  | longnameHeader
  deriving DecidableEq, Repr

def tarBlockSize : Nat := 512

def tarEnd : Nat := 2

/-- The state of a stream but for its buffer; `ρ` holds the fields of the derived class. -/
structure UntarStream (ρ : Type) where
  status : TarStatus
  tarEndCount : Nat
  tarInfo : TarInfo
  derived : ρ
  deriving DecidableEq, Repr

/-- One call of `on_write`. -/
structure WriteCall where
  info : TarInfo
  content : Bytes
  deriving DecidableEq, Repr

namespace UntarStream

variable {ρ : Type}

def init (derived : ρ) : UntarStream ρ := ⟨.header, 0, .clear, derived⟩

def eof (s : UntarStream ρ) : Bool := s.tarEndCount = tarEnd

/-- `zn_untar_stream::_set_tar_info`. -/
def setTarInfo (s : UntarStream ρ) (header : Bytes) : UntarStream ρ × Bool :=
  if (TarHeader.magic header).take 5 ≠ tmagic then (s, false)
  else
    -- common for ordinary file and long name
    let size := base8to10 (ascii2uint (TarHeader.size header))
    let sized := { s with tarInfo := { s.tarInfo with size := size, bytesLeft := size } }
    if TarHeader.typeflag header = regtype then
      -- a long name is set already
      let name := if s.status = .header then TarHeader.name header else s.tarInfo.name
      ({ sized with
          status := .content
          tarInfo := { sized.tarInfo with
            name := name
            mtime := ascii2uint (TarHeader.mtime header)
            gname := TarHeader.gname header } }, true)
    else if TarHeader.typeflag header = lftype then
      ({ sized with status := .longname, tarInfo := { sized.tarInfo with name := [] } }, true)
    -- any other entry is refused, but its size stays behind
    else (sized, false)

/-- The virtual `_set_tar_info` of a class of streams. -/
abbrev SetTarInfo (ρ : Type) := UntarStream ρ → Bytes → UntarStream ρ × Bool

/-- The body of the loop of `feed` for one block, once `eof` is ruled out. -/
def feedBlock (set : SetTarInfo ρ) (s : UntarStream ρ) (block : Bytes) :
    UntarStream ρ × List WriteCall :=
  match s.status with
  | .header | .longnameHeader =>
    -- an end mark, or a header that may be refused; no block is skipped after it
    if (TarHeader.magic block).head? = some 0 ∧ allZero block then
      ({ s with tarEndCount := s.tarEndCount + 1 }, [])
    else ((set s block).1, [])
  | .content =>
    if s.tarInfo.bytesLeft > tarBlockSize then
      ({ s with tarInfo := { s.tarInfo with bytesLeft := s.tarInfo.bytesLeft - tarBlockSize } },
        [⟨s.tarInfo, block⟩])
    -- the last block of the entry; an empty one takes a block, too
    else
      ({ s with tarInfo := .clear, status := .header },
        [⟨s.tarInfo, block.take s.tarInfo.bytesLeft⟩])
  | .longname =>
    if s.tarInfo.bytesLeft > tarBlockSize then
      ({ s with tarInfo := { s.tarInfo with
          name := s.tarInfo.name ++ block
          bytesLeft := s.tarInfo.bytesLeft - tarBlockSize } }, [])
    else
      ({ s with
          -- the end of the name is a C string, and its file comes next
          status := .longnameHeader
          tarInfo := { s.tarInfo with name := s.tarInfo.name ++ cstr block, bytesLeft := 0 } }, [])

/-- The loop of `feed` with `shift(ZN_TAR_BLOCK_SIZE)` written out: fewer bytes than a block end
it, and after the end of the archive the block shifted last is lost. -/
def feedLoop (set : SetTarInfo ρ) : Nat → UntarStream ρ → Bytes →
    (UntarStream ρ × Bytes) × List WriteCall
  | 0, s, buf => ((s, buf), [])
  | rounds + 1, s, buf =>
    if buf.length < tarBlockSize then ((s, buf), [])
    else if s.eof then ((s, buf.drop tarBlockSize), [])
    else
      let (s', calls) := feedBlock set s (buf.take tarBlockSize)
      let (done, more) := feedLoop set rounds s' (buf.drop tarBlockSize)
      (done, calls ++ more)

/-- `zn_untar_stream::feed` on a stream with its buffer. A round takes a block off the buffer, so
as many rounds as bytes are enough. -/
def feed (set : SetTarInfo ρ) (stream : UntarStream ρ × Bytes) (buf : Bytes) :
    (UntarStream ρ × Bytes) × List WriteCall :=
  feedLoop set (stream.2 ++ buf).length stream.1 (stream.2 ++ buf)

/-- A sequence of calls of `feed`, with all the calls of `on_write` they make. -/
def feedAll (set : SetTarInfo ρ) (stream : UntarStream ρ × Bytes) :
    List Bytes → (UntarStream ρ × Bytes) × List WriteCall
  | [] => (stream, [])
  | buf :: bufs =>
    let (stream', calls) := feed set stream buf
    let (done, more) := feedAll set stream' bufs
    (done, calls ++ more)

/-! ### The stream as a block machine -/

def machine (set : SetTarInfo ρ) : BlockMachine UInt8 (UntarStream ρ) WriteCall where
  size := tarBlockSize
  size_pos := by decide
  halted := eof
  step := feedBlock set

theorem feedLoop_eq_drain (set : SetTarInfo ρ) (rounds : Nat) (s : UntarStream ρ) (buf : Bytes) :
    feedLoop set rounds s buf = (machine set).drain rounds s buf := by
  induction rounds generalizing s buf with
  | zero => rfl
  | succ rounds ih => simp only [feedLoop, BlockMachine.drain, ih]; rfl

theorem feedAll_eq_machine (set : SetTarInfo ρ) (stream : UntarStream ρ × Bytes)
    (bufs : List Bytes) : feedAll set stream bufs = (machine set).feedAll stream bufs := by
  induction bufs generalizing stream with
  | nil => rfl
  | cons buf bufs ih =>
    simp only [feedAll, BlockMachine.feedAll, feed, BlockMachine.feed, feedLoop_eq_drain, ih]

end UntarStream

/-! ### `zn_zimbra_untar_stream` -/

abbrev ZimbraUntarStream := UntarStream TarFilenameProcessor

namespace ZimbraUntarStream

/-- A new stream; `folderRenamePrefix` is the parameter `FOLDER_RENAME_PREFIX`. -/
def init (folderRenamePrefix : Bytes) : ZimbraUntarStream :=
  UntarStream.init (TarFilenameProcessor.init folderRenamePrefix)

/-- `zn_zimbra_untar_stream::_set_tar_info`. -/
def setTarInfo (s : ZimbraUntarStream) (header : Bytes) : ZimbraUntarStream × Bool :=
  let (base, ret) := UntarStream.setTarInfo s header
  if ret then
    let (tfp, name) := base.derived.process base.tarInfo.name
    ({ base with derived := tfp, tarInfo := { base.tarInfo with name := name } }, ret)
  else (base, ret)

end ZimbraUntarStream

end Zn
