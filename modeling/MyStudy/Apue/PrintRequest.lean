import Mathlib
import MyStudy.Zn.Misc

/-!
# Print requests

What a client asks for, as it stands on the wire and in the control file, and the headers that the
printer gets in front of a document.
-/
namespace Apue.Printd

def usernmMax : Nat := 64

def jobnmMax : Nat := 256

def iobufsz : Nat := 8192

def ibufsz : Nat := 512

/-! ### Numbers -/

def be16 (n : Nat) : Bytes := [UInt8.ofNat (n / 2 ^ 8), UInt8.ofNat n]

def be32 (n : UInt32) : Bytes :=
  [UInt8.ofNat (n.toNat / 2 ^ 24), UInt8.ofNat (n.toNat / 2 ^ 16), UInt8.ofNat (n.toNat / 2 ^ 8),
    UInt8.ofNat n.toNat]

def le32 (n : UInt32) : Bytes := (be32 n).reverse

def bigEndian (b : Bytes) : Nat := b.foldl (fun v c => v * 256 + c.toNat) 0

def ofBe32 (b : Bytes) : UInt32 := UInt32.ofNat (bigEndian b)

def ofLe32 (b : Bytes) : UInt32 := ofBe32 b.reverse

@[simp] theorem length_be16 (n : Nat) : (be16 n).length = 2 := rfl

@[simp] theorem length_be32 (n : UInt32) : (be32 n).length = 4 := rfl

@[simp] theorem length_le32 (n : UInt32) : (le32 n).length = 4 := rfl

@[simp] theorem bigEndian_be32 (n : UInt32) : bigEndian (be32 n) = n.toNat := by
  have small := n.toNat_lt
  simp [bigEndian, be32]
  omega

@[simp] theorem ofBe32_be32 (n : UInt32) : ofBe32 (be32 n) = n := by simp [ofBe32]

@[simp] theorem ofLe32_le32 (n : UInt32) : ofLe32 (le32 n) = n := by simp [ofLe32, le32]

/-! ### The request -/

/-- `struct printreq`. -/
structure Printreq where
  size : UInt32
  flags : UInt32
  usernm : Bytes
  jobnm : Bytes
  usernm_length : usernm.length = usernmMax
  jobnm_length : jobnm.length = jobnmMax
  deriving DecidableEq

def sizeofPrintreq : Nat := 328

def prText : UInt32 := 1

namespace Printreq

/-- A request from its bytes. -/
def read (word : Bytes → UInt32) (bytes : Bytes) : Option Printreq :=
  if length : bytes.length = sizeofPrintreq then
    some {
      size := word (bytes.take 4)
      flags := word ((bytes.drop 4).take 4)
      usernm := (bytes.drop 8).take usernmMax
      jobnm := bytes.drop 72
      usernm_length := by simp [length, sizeofPrintreq, usernmMax]
      jobnm_length := by simp [length, sizeofPrintreq, jobnmMax] }
  else none

/-- The request that a client sends, with its numbers in network order. -/
def ofNet : Bytes → Option Printreq := read ofBe32

/-- The request in a control file. -/
def ofImage : Bytes → Option Printreq := read ofLe32

/-- What `submit_file` sends. -/
def net (r : Printreq) : Bytes := be32 r.size ++ (be32 r.flags ++ (r.usernm ++ r.jobnm))

/-- What the control file holds. -/
def image (r : Printreq) : Bytes := le32 r.size ++ (le32 r.flags ++ (r.usernm ++ r.jobnm))

def isText (r : Printreq) : Bool := r.flags &&& prText != 0

def setText (r : Printreq) : Printreq := { r with flags := r.flags ||| prText }

variable {r : Printreq}

theorem read_fields {word : Bytes → UInt32} {bytes : UInt32 → Bytes}
    (four : ∀ n, (bytes n).length = 4) (inverse : ∀ n, word (bytes n) = n) :
    read word (bytes r.size ++ (bytes r.flags ++ (r.usernm ++ r.jobnm))) = some r := by
  have total : (bytes r.size ++ (bytes r.flags ++ (r.usernm ++ r.jobnm))).length =
      sizeofPrintreq := by
    simp [four, r.usernm_length, r.jobnm_length, sizeofPrintreq, usernmMax, jobnmMax]
  simp only [read, total, dite_true]
  have first (l : Bytes) : (bytes r.size ++ l).drop 4 = l := List.drop_left' (four _)
  have second (l : Bytes) : (bytes r.size ++ (bytes r.flags ++ l)).drop 8 = l := by
    rw [← List.append_assoc]
    exact List.drop_left' (by simp [four])
  have third : (bytes r.size ++ (bytes r.flags ++ (r.usernm ++ r.jobnm))).drop 72 = r.jobnm := by
    rw [← List.append_assoc, ← List.append_assoc]
    exact List.drop_left' (by simp [four, r.usernm_length, usernmMax])
  simp only [first, second, third, List.take_left' (four _), List.take_left' r.usernm_length,
    inverse]

theorem ofImage_short {bytes : Bytes} (short : bytes.length ≠ sizeofPrintreq) :
    ofImage bytes = none :=
  dif_neg short

@[simp] theorem ofImage_image : ofImage r.image = some r := read_fields length_le32 ofLe32_le32

@[simp] theorem length_image : r.image.length = sizeofPrintreq := by
  simp [image, r.usernm_length, r.jobnm_length, sizeofPrintreq, usernmMax, jobnmMax]

end Printreq

/-! ### Headers -/

structure Job where
  jobid : Int
  req : Printreq
  deriving DecidableEq

/-- `strlen` finds the end of a string, if it is among the bytes that are known. -/
def cstring (b : Bytes) : Option Bytes := if b.contains 0 then some (cstr b) else none

def tagOperationAttr : UInt8 := 0x01

def tagEndOfAttr : UInt8 := 0x03

def tagNamewolang : UInt8 := 0x42

def tagUri : UInt8 := 0x45

def tagCharset : UInt8 := 0x47

def tagNatulang : UInt8 := 0x48

def tagMimetype : UInt8 := 0x49

def opPrintJob : Nat := 0x02

/-- `add_option`. -/
def addOption (tag : UInt8) (optname optval : Bytes) : Bytes :=
  tag :: (be16 optname.length ++ (optname ++ (be16 optval.length ++ optval)))

def documentFormat (req : Printreq) : Bytes :=
  if req.isText then ascii "text/plain" else ascii "application/postscript"

def printerUri (printerName : Bytes) : Bytes := ascii "http://" ++ printerName ++ ascii "/ipp"

/-- What `printer_thread` writes into `ibuf`, however long it is. -/
def ippBytes (printerName : Bytes) (job : Job) (usernm jobnm : Bytes) : Bytes :=
  [1, 1] ++ be16 opPrintJob ++ be32 (UInt32.ofInt job.jobid) ++ [tagOperationAttr] ++
    addOption tagCharset (ascii "attributes-charset") (ascii "utf-8") ++
    addOption tagNatulang (ascii "attributes-natural-language") (ascii "en-us") ++
    addOption tagUri (ascii "printer-uri") (printerUri printerName) ++
    addOption tagNamewolang (ascii "requesting-user-name") usernm ++
    addOption tagNamewolang (ascii "job-name") jobnm ++
    addOption tagMimetype (ascii "document-format") (documentFormat job.req) ++ [tagEndOfAttr]

/-- The IPP header, unless it runs over `str` or `ibuf` or a name has no end. -/
def ippHeader (printerName : Bytes) (job : Job) : Option Bytes :=
  match cstring (job.req.usernm ++ job.req.jobnm), cstring job.req.jobnm with
  | some usernm, some jobnm =>
    let ibuf := ippBytes printerName job usernm jobnm
    if (printerUri printerName).length < 64 ∧ ibuf.length ≤ ibufsz then some ibuf else none
  | _, _ => none

/-- The HTTP header. -/
def httpHeader (printerName : Bytes) (contentLength : Nat) : Bytes :=
  ascii "POST /ipp HTTP/1.1\r\n" ++ ascii "Content-Length: " ++ decimal contentLength ++
    ascii "\r\n" ++
    ascii "Content-Type: application/ipp\r\n" ++ ascii "Host: " ++ printerName ++
    ascii ":631\r\n" ++ ascii "\r\n"

def extra (req : Printreq) : Nat := if req.isText then 1 else 0

end Apue.Printd
