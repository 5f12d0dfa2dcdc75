import MyStudy.Lib.Bytes

/-!
# The tar header

`struct tar_header` seen through a 512-byte block. A `char *` field that the code uses as a C
string runs on past the field until the first NUL of the block.
-/
namespace Zn

namespace TarHeader

/-- The `len` bytes of a header at `offset`. -/
def field (offset len : Nat) (header : Bytes) : Bytes := (header.drop offset).take len

def name (header : Bytes) : Bytes := cstr header

def size (header : Bytes) : Bytes := field 124 12 header

def mtime (header : Bytes) : Bytes := field 136 12 header

def typeflag (header : Bytes) : UInt8 := header.getD 156 0

def magic (header : Bytes) : Bytes := field 257 6 header

def gname (header : Bytes) : Bytes := cstr (header.drop 297)

end TarHeader

def tmagic : Bytes := ascii "ustar"

def regtype : UInt8 := '0'.toUInt8

def lftype : UInt8 := 'L'.toUInt8

end Zn
