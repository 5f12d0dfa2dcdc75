import MyStudy.Lib.Numerals

/-!
# Addresses

The functions of `inet_pton.c`, `inet_ntop.c` and `inet_aton.c`. A string is what stands before its
NUL; an access outside an array is a fault.
-/
namespace Unp

def inAddrSz : Nat := 4

def in6AddrSz : Nat := 16

def int16Sz : Nat := 2

/-! ### From texts -/

/-- An access outside an array, 0 or 1, with what is stored at `dst`. -/
inductive Pton where
  | fault
  | zero
  | one (dst : Bytes)
  deriving DecidableEq, Repr

/-- Bytes are stored one after the other. -/
def store (tmp : Bytes) (tp : Nat) (bytes : Bytes) : Option Bytes :=
  if tp + bytes.length ≤ tmp.length then some
    (tmp.take tp ++ bytes ++ tmp.drop (tp + bytes.length)) else none

def digits : Bytes := ascii "0123456789"

structure State4 where
  tmp : Bytes
  tp : Nat
  octets : Nat
  sawDigit : Bool
  deriving DecidableEq, Repr

/-- The loop of `inet_pton4`. -/
def pton4Loop (st : State4) : Bytes → Pton
  | [] => if st.octets < 4 then .zero else .one st.tmp
  | ch :: src =>
    match digits.idxOf? ch with
    | some d =>
      match st.tmp[st.tp]? with
      | none => .fault
      | some octet =>
        let new := octet.toNat * 10 + d
        if 255 < new then .zero
        else
          let tmp := st.tmp.set st.tp (UInt8.ofNat new)
          if st.sawDigit then pton4Loop { st with tmp := tmp } src
          else if 4 < st.octets + 1 then .zero
          else pton4Loop ⟨tmp, st.tp, st.octets + 1, true⟩ src
    | none =>
      if ch = 46 ∧ st.sawDigit then
        if st.octets = 4 then .zero
        else
          match store st.tmp (st.tp + 1) [0] with
          | none => .fault
          | some tmp => pton4Loop ⟨tmp, st.tp + 1, st.octets, false⟩ src
      else .zero

/-- What `tmp` holds before it is filled does not matter. -/
def inet_pton4 (src : Bytes) : Pton := pton4Loop ⟨List.replicate inAddrSz 0, 0, 0, false⟩ src

def xdigitsL : Bytes := ascii "0123456789abcdef"

def xdigitsU : Bytes := ascii "0123456789ABCDEF"

def xdigit (ch : UInt8) : Option Nat := xdigitsL.idxOf? ch <|> xdigitsU.idxOf? ch

structure State6 where
  tmp : Bytes
  tp : Nat
  colonp : Option Nat
  curtok : Bytes
  sawXdigit : Bool
  val : Nat
  deriving DecidableEq, Repr

/-- The two bytes of a word. -/
def word (val : Nat) : Bytes := [UInt8.ofNat (val >>> 8 &&& 255), UInt8.ofNat (val &&& 255)]

/-- What was stored behind `::` is moved to the end, byte by byte: `k` bytes are left of `n`. -/
def shiftLoop (colonp n : Nat) : Nat → Bytes → Option Bytes
  | 0, tmp => some tmp
  | k + 1, tmp =>
    (tmp[colonp + k]?).bind fun b =>
      (store tmp (in6AddrSz - (n - k)) [b]).bind fun tmp =>
        (store tmp (colonp + k) [0]).bind fun tmp => shiftLoop colonp n k tmp

/-- Behind the loop of `inet_pton6`. -/
def pton6Shift (tmp : Bytes) (tp : Nat) : Option Nat → Pton
  | none => if tp ≠ in6AddrSz then .zero else .one tmp
  | some colonp =>
    match shiftLoop colonp (tp - colonp) (tp - colonp) tmp with
    | none => .fault
    | some tmp => .one tmp

def pton6End (st : State6) : Pton :=
  if st.sawXdigit then
    if in6AddrSz < st.tp + int16Sz then .zero
    else
      match store st.tmp st.tp (word st.val) with
      | none => .fault
      | some tmp => pton6Shift tmp (st.tp + int16Sz) st.colonp
  else pton6Shift st.tmp st.tp st.colonp

/-- The loop of `inet_pton6`. -/
def pton6Loop (st : State6) : Bytes → Pton
  | [] => pton6End st
  | ch :: src =>
    match xdigit ch with
    | some d =>
      let val := st.val <<< 4 ||| d
      if 0xffff < val then .zero else pton6Loop { st with sawXdigit := true, val := val } src
    | none =>
      if ch = 58 then
        if st.sawXdigit then
          if in6AddrSz < st.tp + int16Sz then .zero
          else
            match store st.tmp st.tp (word st.val) with
            | none => .fault
            | some tmp => pton6Loop ⟨tmp, st.tp + int16Sz, st.colonp, src, false, 0⟩ src
        else if st.colonp.isSome then .zero
        else pton6Loop { st with curtok := src, colonp := some st.tp } src
      else if ch = 46 ∧ st.tp + inAddrSz ≤ in6AddrSz then
        match inet_pton4 st.curtok with
        | .fault => .fault
        | .zero => .zero
        | .one dst =>
          match store st.tmp st.tp dst with
          | none => .fault
          | some tmp => pton6End { st with tmp := tmp, tp := st.tp + inAddrSz, sawXdigit := false }
      else .zero

def pton6Start (src : Bytes) : Pton :=
  pton6Loop ⟨List.replicate in6AddrSz 0, 0, none, src, false, 0⟩ src

/-- Leading `::` requires some special handling. -/
def inet_pton6 : Bytes → Pton
  | 58 :: 58 :: src => pton6Start (58 :: src)
  | 58 :: _ => .zero
  | src => pton6Start src

/-- The loop of `inet_aton`, with the dots seen and the address so far. -/
def atonLoop (dots acc addr : Nat) : Bytes → Option (Nat × Nat)
  | [] => if 255 < acc then none else some (dots, (addr <<< 8 ||| acc) % 2 ^ 64)
  | cc :: cp =>
    if isDigit cc then atonLoop dots ((acc * 10 + digitVal cc) % 2 ^ 64) addr cp
    else if cc = 46 then
      if 3 < dots + 1 then none
      else if 255 < acc then none
      else atonLoop (dots + 1) 0 ((addr <<< 8 ||| acc) % 2 ^ 64) cp
    else none

/-- What `htonl` stores. -/
def htonl (addr : Nat) : Bytes :=
  [UInt8.ofNat (addr >>> 24), UInt8.ofNat (addr >>> 16), UInt8.ofNat (addr >>> 8), UInt8.ofNat addr]

def inet_aton (cp : Bytes) : Option Bytes :=
  (atonLoop 0 0 0 cp).map fun (dots, addr) =>
    htonl (if dots < 3 then addr <<< (8 * (3 - dots)) % 2 ^ 64 else addr)

/-! ### To texts -/

/-- An access outside `dst`, `NULL`, or the text that is stored. -/
inductive Ntop where
  | fault
  | null
  | text (dst : Bytes)
  deriving DecidableEq, Repr

def strcpy (size : Nat) (tmp : Bytes) : Ntop := if tmp.length + 1 ≤ size then .text tmp else .fault

def dotted (src : Bytes) : Bytes :=
  decimal (src.getD 0 0).toNat ++ 46 :: decimal (src.getD 1 0).toNat ++ 46 ::
    decimal (src.getD 2 0).toNat ++
    46 :: decimal (src.getD 3 0).toNat

def inet_ntop4 (src : Bytes) (size : Nat) : Ntop :=
  let tmp := dotted src
  if size < tmp.length then .null else strcpy size tmp

/-- The input array as words. -/
def words (src : Bytes) : List Nat :=
  (List.range in6AddrSz).foldl
    (fun words i =>
      words.set (i / 2) (words.getD (i / 2) 0 ||| (src.getD i 0).toNat <<< ((1 - i % 2) <<< 3)))
    (List.replicate (in6AddrSz / int16Sz) 0)

structure Run where
  base : Nat
  len : Nat
  deriving DecidableEq, Repr

/-- The longer run, or the first one. -/
def Run.better (cur : Run) : Option Run → Run
  | none => cur
  | some best => if best.len < cur.len then cur else best

/-- The search for the longest run, from word `i` on. -/
def runsLoop : Nat → List Nat → Option Run → Option Run → Option Run
  | _, [], best, none => best
  | _, [], best, some cur => some (cur.better best)
  | i, word :: words, best, cur =>
    if word = 0 then
      match cur with
      | none => runsLoop (i + 1) words best (some ⟨i, 1⟩)
      | some cur => runsLoop (i + 1) words best (some { cur with len := cur.len + 1 })
    else
      match cur with
      | none => runsLoop (i + 1) words best none
      | some cur => runsLoop (i + 1) words (some (cur.better best)) none

/-- What `::` stands for. -/
def shorthand (words : List Nat) : Option Run :=
  (runsLoop 0 words none none).filter fun best => 2 ≤ best.len

def xdigitByte (d : Nat) : UInt8 := xdigitsL.getD d 0

/-- `%x`. -/
def hexText (n : Nat) : Bytes := Numerals.write 16 xdigitByte n

def tmpSz : Nat := 46

/-- The loop that formats the result, with `k` words left; `none` where `inet_ntop4` fails. -/
def formatLoop (src : Bytes) (words : List Nat) (best : Option Run) :
    Nat → Nat → Bytes → Option Bytes
  | 0, _, out => some out
  | k + 1, i, out =>
    match best.filter fun best => best.base ≤ i ∧ i < best.base + best.len with
    | some run => formatLoop src words best k (i + 1) (if i = run.base then out ++ [58] else out)
    | none =>
      let out := if i ≠ 0 then out ++ [58] else out
      if i = 6 ∧ best.any fun best =>
        best.base = 0 ∧ (best.len = 6 ∨ best.len = 5 ∧ words.getD 5 0 = 0xffff) then
        match inet_ntop4 (src.drop 12) (tmpSz - out.length) with
        | .text dst => some (out ++ dst)
        | _ => none
      else formatLoop src words best k (i + 1) (out ++ hexText (words.getD i 0))

/-- What `tmp` holds in the end, without the NUL. -/
def format6 (src : Bytes) : Option Bytes :=
  let best := shorthand (words src)
  (formatLoop src (words src) best (in6AddrSz / int16Sz) 0 []).map fun out =>
    if best.any fun best => best.base + best.len = in6AddrSz / int16Sz then out ++ [58] else out

def inet_ntop6 (src : Bytes) (size : Nat) : Ntop :=
  match format6 src with
  | none => .null
  | some tmp => if size < tmp.length + 1 then .null else strcpy size tmp

end Unp
