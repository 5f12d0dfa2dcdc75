import MyStudy.Lib.Bytes

/-!
# UTF-16

Characters as units of two bytes, the high one first. A character beyond `0xFFFF` is a pair of
surrogates.
-/

namespace Utf16

def units (c : Char) : List Nat :=
  if c.toNat < 0x10000 then [c.toNat]
  else [0xD800 + (c.toNat - 0x10000) / 0x400, 0xDC00 + (c.toNat - 0x10000) % 0x400]

def isSurrogate (u : Nat) : Bool := 0xD800 ≤ u && u < 0xE000

/-- The characters of the units; a surrogate that is not in a pair is an error. -/
def ofUnits : List Nat → Option (List Char)
  | [] => some []
  | [u] => if isSurrogate u then none else some [Char.ofNat u]
  | u :: v :: rest =>
    if isSurrogate u then
      if u < 0xDC00 && 0xDC00 ≤ v && isSurrogate v then
        (ofUnits rest).map (Char.ofNat (0x10000 + (u - 0xD800) * 0x400 + (v - 0xDC00)) :: ·)
      else none
    else (ofUnits (v :: rest)).map (Char.ofNat u :: ·)

theorem units_lt (c : Char) : ∀ u ∈ units c, u < 0x10000 := by
  have valid : c.toNat < 0xD800 ∨ 0xDFFF < c.toNat ∧ c.toNat < 0x110000 := c.valid
  intro u member
  rw [units] at member
  split at member
  next low => simpa [List.mem_singleton.mp member] using low
  next high =>
    simp only [List.mem_cons, List.not_mem_nil, or_false] at member
    omega

theorem ofUnits_single (u : Nat) (rest : List Nat) (plain : isSurrogate u = false) :
    ofUnits (u :: rest) = (ofUnits rest).map (Char.ofNat u :: ·) := by
  cases rest with
  | nil => simp [ofUnits, plain]
  | cons v rest => rw [ofUnits, if_neg (by simp [plain])]

theorem ofUnits_units (c : Char) (rest : List Nat) :
    ofUnits (units c ++ rest) = (ofUnits rest).map (c :: ·) := by
  have valid : c.toNat < 0xD800 ∨ 0xDFFF < c.toNat ∧ c.toNat < 0x110000 := c.valid
  rw [units]
  split
  next low =>
    have plain : isSurrogate c.toNat = false := by
      simp only [isSurrogate, Bool.and_eq_false_iff, decide_eq_false_iff_not]
      omega
    rw [List.singleton_append, ofUnits_single c.toNat rest plain, Char.ofNat_toNat]
  next high =>
    -- a pair: the offset beyond 0xFFFF in two parts of ten bits
    have first : isSurrogate (0xD800 + (c.toNat - 0x10000) / 0x400) = true := by
      simp only [isSurrogate, Bool.and_eq_true, decide_eq_true_eq]
      omega
    have second : isSurrogate (0xDC00 + (c.toNat - 0x10000) % 0x400) = true := by
      simp only [isSurrogate, Bool.and_eq_true, decide_eq_true_eq]
      omega
    have whole : 0x10000 + (0xD800 + (c.toNat - 0x10000) / 0x400 - 0xD800) * 0x400 +
        (0xDC00 + (c.toNat - 0x10000) % 0x400 - 0xDC00) = c.toNat := by omega
    have order : 0xD800 + (c.toNat - 0x10000) / 0x400 < 0xDC00 := by omega
    simp only [List.cons_append, List.nil_append, ofUnits, first, second, whole, order,
      Nat.le_add_right, decide_true, Bool.and_self, if_true, Char.ofNat_toNat]

theorem ofUnits_flatMap (chars : List Char) : ofUnits (chars.flatMap units) = some chars := by
  induction chars with
  | nil => rfl
  | cons c chars ih => rw [List.flatMap_cons, ofUnits_units, ih, Option.map_some]

/-! ### Bytes -/

def encode (chars : List Char) : Bytes :=
  (chars.flatMap units).flatMap fun u => [UInt8.ofNat (u / 256), UInt8.ofNat u]

def unitsOfBytes : Bytes → Option (List Nat)
  | [] => some []
  | [_] => none
  | a :: b :: rest => (unitsOfBytes rest).map ((a.toNat * 256 + b.toNat) :: ·)

def decode (bytes : Bytes) : Option (List Char) := (unitsOfBytes bytes).bind ofUnits

theorem unitsOfBytes_flatMap (us : List Nat) (small : ∀ u ∈ us, u < 0x10000) :
    unitsOfBytes (us.flatMap fun u => [UInt8.ofNat (u / 256), UInt8.ofNat u]) = some us := by
  induction us with
  | nil => rfl
  | cons u us ih =>
    have here := small u (by simp)
    have whole : u / 256 % 256 * 256 + u % 256 = u := by omega
    simp [unitsOfBytes, ih fun v member => small v (by simp [member]), whole]

theorem decode_encode (chars : List Char) : decode (encode chars) = some chars := by
  have small : ∀ u ∈ chars.flatMap units, u < 0x10000 := by
    intro u member
    obtain ⟨c, _, among⟩ := List.mem_flatMap.mp member
    exact units_lt c u among
  rw [decode, encode, unitsOfBytes_flatMap _ small, Option.bind_some, ofUnits_flatMap]

theorem encode_ne_nil (chars : List Char) (some_ : chars ≠ []) : encode chars ≠ [] := by
  obtain ⟨c, rest, rfl⟩ := List.exists_cons_of_ne_nil some_
  rw [encode, List.flatMap_cons, units]
  split <;> simp

end Utf16
