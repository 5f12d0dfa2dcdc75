import MyStudy.Lib.Bytes

/-!
# Base 64

Bytes as digits of six bits, without padding characters at the end.
-/

namespace Base64

/-- The digits of the bytes, three bytes in four digits. -/
def sextets : Bytes → List Nat
  | a :: b :: c :: rest =>
    let n := a.toNat * 65536 + b.toNat * 256 + c.toNat
    n / 262144 :: n / 4096 % 64 :: n / 64 % 64 :: n % 64 :: sextets rest
  | [a, b] =>
    let n := a.toNat * 256 + b.toNat
    [n / 1024, n / 16 % 64, n % 16 * 4]
  | [a] => [a.toNat / 4, a.toNat % 4 * 16]
  | [] => []

/-- The bytes of the digits. The bits behind the last byte have to be zero. -/
def octets : List Nat → Option Bytes
  | a :: b :: c :: d :: rest =>
    let n := a * 262144 + b * 4096 + c * 64 + d
    (octets rest).map fun bytes =>
      UInt8.ofNat (n / 65536) :: UInt8.ofNat (n / 256) :: UInt8.ofNat n :: bytes
  | [a, b, c] =>
    if c % 4 = 0 then some [UInt8.ofNat (a * 4 + b / 16), UInt8.ofNat (b * 16 + c / 4)] else none
  | [a, b] => if b % 16 = 0 then some [UInt8.ofNat (a * 4 + b / 16)] else none
  | [_] => none
  | [] => some []

theorem sextets_lt (bytes : Bytes) : ∀ n ∈ sextets bytes, n < 64 := by
  induction bytes using sextets.induct with
  | case1 a b c rest ih =>
    have small := a.toNat_lt
    have small' := b.toNat_lt
    have small'' := c.toNat_lt
    intro m member
    simp only [sextets, List.mem_cons] at member
    rcases member with rfl | rfl | rfl | rfl | later
    · omega
    · omega
    · omega
    · omega
    · exact ih m later
  | case2 a b =>
    have small := a.toNat_lt
    have small' := b.toNat_lt
    intro m member
    simp only [sextets, List.mem_cons, List.not_mem_nil, or_false] at member
    omega
  | case3 a =>
    have small := a.toNat_lt
    intro m member
    simp only [sextets, List.mem_cons, List.not_mem_nil, or_false] at member
    omega
  | case4 => simp [sextets]

theorem octets_sextets (bytes : Bytes) : octets (sextets bytes) = some bytes := by
  have byte (a : UInt8) (n : Nat) (same : n % 256 = a.toNat) : UInt8.ofNat n = a := by
    apply UInt8.toNat_inj.mp
    rw [UInt8.toNat_ofNat', same]
  -- the induction takes three bytes at a time, and then the one or two that are left
  induction bytes using sextets.induct with
  | case1 a b c rest ih =>
    have small := a.toNat_lt
    have small' := b.toNat_lt
    have small'' := c.toNat_lt
    simp only [sextets, octets, ih, Option.map_some]
    rw [byte a, byte b, byte c]
    all_goals omega
  | case2 a b =>
    have small := a.toNat_lt
    have small' := b.toNat_lt
    simp only [sextets, octets]
    rw [if_pos (by omega), byte a, byte b]
    all_goals omega
  | case3 a =>
    have small := a.toNat_lt
    simp only [sextets, octets]
    rw [if_pos (by omega), byte a]
    omega
  | case4 => rfl

/-! ### Alphabets -/

/-- A character for each digit, and the way back. -/
structure Alphabet where
  char : Nat → UInt8
  value : UInt8 → Option Nat
  value_char : ∀ n < 64, value (char n) = some n

def encode (alphabet : Alphabet) (bytes : Bytes) : Bytes := (sextets bytes).map alphabet.char

def decode (alphabet : Alphabet) (text : Bytes) : Option Bytes :=
  (text.mapM alphabet.value).bind octets

theorem decode_encode (alphabet : Alphabet) (bytes : Bytes) :
    decode alphabet (encode alphabet bytes) = some bytes := by
  have values : (encode alphabet bytes).mapM alphabet.value = some (sextets bytes) := by
    rw [encode]
    have small := sextets_lt bytes
    generalize sextets bytes = digits at small
    induction digits with
    | nil => rfl
    | cons n digits ih =>
      rw [List.map_cons, List.mapM_cons, alphabet.value_char n (small n (by simp)),
        ih fun m member => small m (by simp [member])]
      rfl
  rw [decode, values, Option.bind_some, octets_sextets]

/-- Every character of the text is one of the alphabet. -/
theorem mem_encode (alphabet : Alphabet) (bytes : Bytes) (c : UInt8)
    (member : c ∈ encode alphabet bytes) : ∃ n < 64, c = alphabet.char n := by
  obtain ⟨n, digit, rfl⟩ := List.mem_map.mp member
  exact ⟨n, sextets_lt bytes n digit, rfl⟩

theorem encode_ne_nil (alphabet : Alphabet) (bytes : Bytes) (some_ : bytes ≠ []) :
    encode alphabet bytes ≠ [] := by
  rw [encode, ne_eq, List.map_eq_nil_iff]
  match bytes, some_ with
  | [_], _ => simp [sextets]
  | [_, _], _ => simp [sextets]
  | _ :: _ :: _ :: _, _ => simp [sextets]

/-- `A` to `Z`, `a` to `z`, `0` to `9`, `+`, and the given last one. -/
def digitChar (last : UInt8) (n : Nat) : UInt8 :=
  if n < 26 then UInt8.ofNat (65 + n)
  else if n < 52 then UInt8.ofNat (71 + n)
  else if n < 62 then UInt8.ofNat (n - 4)
  else if n = 62 then '+'.toUInt8
  else last

def digitValue (last : UInt8) (c : UInt8) : Option Nat :=
  if 65 ≤ c && c ≤ 90 then some (c.toNat - 65)
  else if 97 ≤ c && c ≤ 122 then some (c.toNat - 71)
  else if 48 ≤ c && c ≤ 57 then some (c.toNat + 4)
  else if c = '+'.toUInt8 then some 62
  else if c = last then some 63
  else none

theorem digitValue_digitChar_slash :
    ∀ n < 64, digitValue '/'.toUInt8 (digitChar '/'.toUInt8 n) = some n := by decide

/-- The usual alphabet, with the slash. -/
def standard : Alphabet :=
  ⟨digitChar '/'.toUInt8, digitValue '/'.toUInt8, digitValue_digitChar_slash⟩

end Base64
