import MyStudy.Apue.Db
import MyStudy.Lib.FileLogic

/-!
# Records

A record is a line of the index file, behind a pointer and its length, and a line of the data file.
The texts of a record, what the readers make of them, and the bytes that a list of records owns.
-/
namespace Apue

open FileProgram Separation

/-! ### Numbers -/

/-- A number with blanks before it and something else behind it. -/
theorem leadingInt_padded (pad rest : Bytes) (n : Nat) (blank : ∀ c ∈ pad, c = space)
    (ends : ∀ c, rest.head? = some c → isDigit c = false) :
    Zn.leadingInt (pad ++ (decimal n ++ rest)) = n := by
  obtain ⟨d, more, text⟩ := List.exists_cons_of_ne_nil (decimal_ne_nil n)
  have digit : isDigit d = true := mem_decimal n d (by rw [text]; simp)
  obtain ⟨_, noBlank, minus, plus⟩ := Zn.digit_plain d digit
  have unpadded : (pad ++ (decimal n ++ rest)).dropWhile Zn.isBlank = decimal n ++ rest := by
    rw [List.dropWhile_append_of_pos fun c member => by rw [blank c member]; rfl, text,
      List.cons_append, List.dropWhile_cons_of_neg (by rw [Zn.isBlank, noBlank]; simp)]
  have first : (decimal n ++ rest).head? = some d := by rw [text]; rfl
  have digits : (decimal n ++ rest).takeWhile isDigit = decimal n := by
    rw [List.takeWhile_append_of_pos (mem_decimal n)]
    cases rest with
    | nil => simp
    | cons c rest =>
      rw [List.takeWhile_cons_of_neg (by rw [ends c rfl]; exact Bool.false_ne_true),
        List.append_nil]
  simp only [Zn.leadingInt, unpadded, first, Option.some_inj, minus, plus, decide_false,
    Bool.or_self, Bool.false_eq_true, if_false, digits, numeral_decimal]

theorem toStringInt_nat (n : Nat) : Zn.toStringInt n = decimal n := by
  rw [Zn.toStringInt, if_neg (by omega), Int.natAbs_natCast]

theorem formatWidth_nat (width n : Nat) :
    formatWidth width n = List.replicate (width - (decimal n).length) space ++ decimal n := by
  rw [formatWidth, toStringInt_nat]

theorem length_formatWidth (width n : Nat) (pos : 0 < width) (fits : n < 10 ^ width) :
    (formatWidth width n).length = width := by
  have short := length_decimal_le width n pos fits
  rw [formatWidth_nat, List.length_append, List.length_replicate]
  omega

theorem atol_formatWidth (width n : Nat) (range : n < 2 ^ 63) : atol (formatWidth width n) = n := by
  have value := leadingInt_padded (List.replicate (width - (decimal n).length) space) [] n
    (fun c member => (List.mem_replicate.mp member).2) (by simp)
  rw [List.append_nil] at value
  rw [atol, formatWidth_nat, value]
  omega

theorem atoi_formatWidth (width n : Nat) (range : n < 2 ^ 31) :
    Zn.atoi (formatWidth width n) = n := by
  have value := leadingInt_padded (List.replicate (width - (decimal n).length) space) [] n
    (fun c member => (List.mem_replicate.mp member).2) (by simp)
  rw [List.append_nil] at value
  rw [Zn.atoi, formatWidth_nat, value, max_eq_right (by omega), min_eq_right (by omega)]
  exact Int.bmod_eq_of_le (by omega) (by omega)

theorem atol_terminated (n : Nat) (rest : Bytes) (range : n < 2 ^ 63) :
    atol (decimal n ++ 0 :: rest) = n := by
  have value := leadingInt_padded [] (0 :: rest) n (by simp) (by rintro c ⟨⟩; rfl)
  rw [List.nil_append] at value
  rw [atol, value]
  omega

theorem notMem_decimal (n : Nat) (c : UInt8) (other : isDigit c = false) : c ∉ decimal n := by
  intro member
  rw [mem_decimal n c member] at other
  cases other

/-! ### Texts -/

structure Rec where
  off : Nat
  key : Bytes
  datoff : Nat
  data : Bytes
  deriving DecidableEq, Repr

namespace Rec

/-- The line of the index file. -/
def text (r : Rec) : Bytes :=
  r.key ++ sep :: (decimal r.datoff ++ sep :: (decimal (r.data.length + 1) ++ [newline]))

/-- The line with its length before it. -/
def tail (r : Rec) : Bytes := formatWidth idxlenSz r.text.length ++ r.text

/-- The line as it is in the buffer. -/
def buf (r : Rec) : Bytes :=
  r.key ++ 0 :: (decimal r.datoff ++ 0 :: (decimal (r.data.length + 1) ++ [0]))

/-- A record that the library writes. -/
structure Sound (r : Rec) : Prop where
  keyText : 0 ∉ r.key
  dataText : 0 ∉ r.data
  off_pos : r.off ≠ 0
  off_le : r.off ≤ ptrMax
  datoff_lt : r.datoff < 2 ^ 63
  data_pos : r.data ≠ []
  data_le : r.data.length + 1 ≤ datlenMax
  text_ge : idxlenMin ≤ r.text.length
  text_le : r.text.length ≤ idxlenMax

/-- A record that can be read where it is, be it too far away for a pointer. -/
structure Legible (r : Rec) : Prop where
  off_pos : r.off ≠ 0
  off_lt : r.off < 2 ^ 63
  elsewhere : ∃ off, ({ r with off } : Rec).Sound

/-- A record that can be read again. -/
def Readable (r : Rec) : Prop := sep ∉ r.key

theorem Sound.legible {r : Rec} (sound : r.Sound) : r.Legible := by
  have near := sound.off_le
  rw [ptrMax] at near
  exact ⟨sound.off_pos, by omega, r.off, sound⟩

theorem Legible.keyText {r : Rec} (legible : r.Legible) : 0 ∉ r.key := by
  obtain ⟨_, sound⟩ := legible.elsewhere
  exact sound.keyText

theorem Legible.text_le {r : Rec} (legible : r.Legible) : r.text.length ≤ idxlenMax := by
  obtain ⟨_, sound⟩ := legible.elsewhere
  exact sound.text_le

theorem length_text (r : Rec) : r.text.length =
    r.key.length + (decimal r.datoff).length + (decimal (r.data.length + 1)).length + 3 := by
  rw [text]
  simp only [List.length_append, List.length_cons, List.length_nil]
  omega

theorem length_tail (r : Rec) (sound : r.Sound) : r.tail.length = idxlenSz + r.text.length := by
  have short := sound.text_le
  rw [idxlenMax] at short
  rw [tail, List.length_append, length_formatWidth idxlenSz _ (by decide) (by rw [idxlenSz]; omega)]

end Rec

theorem cstr_append_cons (front rest : Bytes) (c : UInt8) (text : 0 ∉ front) (some_ : c ≠ 0) :
    cstr (front ++ c :: rest) = front ++ c :: cstr rest := by
  have all : ∀ x ∈ front, (x != 0) = true := by
    intro x member
    simpa using fun zero : x = 0 => text (zero ▸ member)
  rw [cstr, List.takeWhile_append_of_pos all, List.takeWhile_cons_of_pos (by simpa using some_),
    cstr]

theorem strchr_append_cons (front rest : Bytes) (c : UInt8) (text : 0 ∉ front) (some_ : c ≠ 0)
    (absent : c ∉ front) : strchr (front ++ c :: rest) c = some front.length := by
  rw [strchr, cstr_append_cons front rest c text some_, idxOf?_append_cons front _ c absent]

theorem strchr_eq_none (s : Bytes) (c : UInt8) : strchr s c = none ↔ c ∉ cstr s :=
  List.idxOf?_eq_none_iff

theorem set_append_cons (front rest : Bytes) (c d : UInt8) :
    (front ++ c :: rest).set front.length d = front ++ d :: rest := by
  rw [List.set_append_right front.length d (Nat.le_refl _), Nat.sub_self, List.set_cons_zero]

theorem drop_append_cons (front rest : Bytes) (c : UInt8) :
    (front ++ c :: rest).drop (front.length + 1) = rest := by
  rw [← List.drop_drop, List.drop_left, List.drop_one, List.tail_cons]

section Apply

variable {α β : Type}

theorem bind_apply (x : DbM α) (f : α → DbM β) (db : DB) :
    (x >>= f) db = (x db).bind fun p => f p.1 p.2 := rfl

theorem pure_apply (a : α) (db : DB) : (pure a : DbM α) db = .ret (a, db) := rfl

theorem get_apply (db : DB) : (get : DbM DB) db = .ret (db, db) := rfl

theorem modify_apply (f : DB → DB) (db : DB) : (modify f : DbM PUnit) db = .ret (⟨⟩, f db) := rfl

theorem set_apply (db' db : DB) : (set db' : DbM PUnit) db = .ret (⟨⟩, db') := rfl

end Apply

/-! ### Reading a line -/

/-- What a line in the buffer leaves behind. -/
def DB.parsed (db : DB) (r : Rec) : DB :=
  { db with
    idxbuf := r.buf
    datoff := r.datoff
    datlen := r.data.length + 1 }

theorem dbParseidx_readable (db : DB) (r : Rec) (sound : r.Sound) (readable : r.Readable)
    (buf : db.idxbuf = r.text.dropLast ++ [0]) : dbParseidx db = .ret (⟨⟩, db.parsed r) := by
  have zeroDigit : isDigit 0 = false := by decide
  have sepDigit : isDigit sep = false := by decide
  have line : db.idxbuf =
      r.key ++ sep :: (decimal r.datoff ++ sep :: (decimal (r.data.length + 1) ++ [0])) := by
    rw [buf, Rec.text]
    simp [List.dropLast_append_of_ne_nil, List.dropLast_cons_of_ne_nil]
  have first : strchr db.idxbuf sep = some r.key.length := by
    rw [line]
    exact strchr_append_cons _ _ sep sound.keyText (by decide) readable
  -- the first separator becomes the end of the key
  have cut : db.idxbuf.set r.key.length 0 =
      r.key ++ 0 :: (decimal r.datoff ++ sep :: (decimal (r.data.length + 1) ++ [0])) := by
    rw [line, set_append_cons]
  have second : strchr (decimal r.datoff ++ sep :: (decimal (r.data.length + 1) ++ [0])) sep =
      some (decimal r.datoff).length :=
    strchr_append_cons _ _ sep (notMem_decimal _ _ zeroDigit) (by decide)
      (notMem_decimal _ _ sepDigit)
  -- and the second one the end of the offset
  have cut' : (r.key ++ 0 :: (decimal r.datoff ++ sep :: (decimal (r.data.length + 1) ++ [0]))).set
      (r.key.length + 1 + (decimal r.datoff).length) 0 = r.buf := by
    have front : (r.key ++ 0 :: decimal r.datoff).length =
        r.key.length + 1 + (decimal r.datoff).length := by
      rw [List.length_append, List.length_cons]
      omega
    have same :=
      set_append_cons (r.key ++ 0 :: decimal r.datoff) (decimal (r.data.length + 1) ++ [0]) sep 0
    rw [front, List.append_assoc, List.cons_append] at same
    rw [same, List.append_assoc, List.cons_append, Rec.buf]
  have tail1 : r.buf.drop (r.key.length + 1) =
      decimal r.datoff ++ 0 :: (decimal (r.data.length + 1) ++ [0]) := drop_append_cons _ _ _
  have tail2 : r.buf.drop (r.key.length + 1 + (decimal r.datoff).length + 1) =
      decimal (r.data.length + 1) ++ [0] := by
    rw [Nat.add_assoc (r.key.length + 1), ← List.drop_drop, tail1]
    exact drop_append_cons _ _ _
  -- there is no third one
  have third : strchr (decimal (r.data.length + 1) ++ [0]) sep = none := by
    rw [strchr_eq_none, cstr_terminated _ _ (notMem_decimal _ _ zeroDigit)]
    exact notMem_decimal _ _ sepDigit
  have short := sound.data_le
  rw [datlenMax] at short
  have datoff : atol (decimal r.datoff ++ 0 :: (decimal (r.data.length + 1) ++ [0])) = r.datoff :=
    atol_terminated _ _ sound.datoff_lt
  have datlen : atol (decimal (r.data.length + 1) ++ [0]) = (r.data.length + 1 : Nat) :=
    atol_terminated _ [] (by omega)
  simp only [dbParseidx, bind_apply, get_apply, Prog.ret_bind, first, cut, drop_append_cons, second,
    cut', tail1, tail2, third, ne_eq, not_true_eq_false, if_false, datoff, datlen]
  rw [if_neg (by omega), if_neg (by rw [datlenMax]; omega)]
  simp only [set_apply, Int.toNat_natCast]
  rfl

/-- A key with the separator in it makes one too many. -/
theorem dbParseidx_unreadable (db : DB) (r : Rec) (sound : r.Sound) (unreadable : ¬ r.Readable)
    (buf : db.idxbuf = r.text.dropLast ++ [0]) :
    dbParseidx db = .stop (.errDump "_db_readidx: too many separators") := by
  have zeroDigit : isDigit 0 = false := by decide
  have line : db.idxbuf =
      r.key ++ sep :: (decimal r.datoff ++ sep :: (decimal (r.data.length + 1) ++ [0])) := by
    rw [buf, Rec.text]
    simp [List.dropLast_append_of_ne_nil, List.dropLast_cons_of_ne_nil]
  obtain ⟨a, b, key, absent⟩ := List.eq_append_cons_of_mem (not_not.mp unreadable)
  have keyText := sound.keyText
  rw [key, List.mem_append, List.mem_cons, not_or, not_or] at keyText
  -- behind the first separator there are two more
  obtain ⟨back, backEq⟩ : ∃ back, back = b ++ sep :: decimal r.datoff := ⟨_, rfl⟩
  have backText : 0 ∉ back := by
    rw [backEq, List.mem_append, List.mem_cons, not_or, not_or]
    exact ⟨keyText.2.2, by decide, notMem_decimal _ _ zeroDigit⟩
  obtain ⟨c, d, split, absent'⟩ := List.eq_append_cons_of_mem
    (show sep ∈ back by rw [backEq]; simp)
  rw [split, List.mem_append, List.mem_cons, not_or, not_or] at backText
  have line' : db.idxbuf = a ++ sep ::
      (c ++ sep :: (d ++ sep :: (decimal (r.data.length + 1) ++ [0]))) := by
    have joined : b ++ sep :: (decimal r.datoff ++ sep :: (decimal (r.data.length + 1) ++ [0])) =
        back ++ sep :: (decimal (r.data.length + 1) ++ [0]) := by
      rw [backEq, List.append_assoc, List.cons_append]
    rw [line, key, List.append_assoc, List.cons_append, joined, split, List.append_assoc,
      List.cons_append]
  have first : strchr db.idxbuf sep = some a.length := by
    rw [line']
    exact strchr_append_cons _ _ sep keyText.1 (by decide) absent
  have cut : db.idxbuf.set a.length 0 =
      a ++ 0 :: (c ++ sep :: (d ++ sep :: (decimal (r.data.length + 1) ++ [0]))) := by
    rw [line', set_append_cons]
  have second : strchr (c ++ sep :: (d ++ sep :: (decimal (r.data.length + 1) ++ [0]))) sep =
      some c.length := strchr_append_cons _ _ sep backText.1 (by decide) absent'
  have tail2 : ((a ++ 0 :: (c ++ sep :: (d ++ sep :: (decimal (r.data.length + 1) ++ [0])))).set
      (a.length + 1 + c.length) 0).drop (a.length + 1 + c.length + 1) =
        d ++ sep :: (decimal (r.data.length + 1) ++ [0]) := by
    have front : (a ++ 0 :: c).length = a.length + 1 + c.length := by
      rw [List.length_append, List.length_cons]
      omega
    have same :=
      set_append_cons (a ++ 0 :: c) (d ++ sep :: (decimal (r.data.length + 1) ++ [0])) sep 0
    rw [front, List.append_assoc, List.cons_append] at same
    rw [same, ← front]
    exact drop_append_cons _ _ _
  have third : strchr (d ++ sep :: (decimal (r.data.length + 1) ++ [0])) sep ≠ none := by
    rw [ne_eq, strchr_eq_none, cstr_append_cons _ _ _ backText.2.2 (by decide)]
    simp
  simp only [dbParseidx, bind_apply, get_apply, Prog.ret_bind, first, cut, drop_append_cons, second,
    tail2, third, ne_eq, not_false_eq_true, if_true, errDump]

/-! ### What records own -/

/-- A pointer. -/
def ptrAt (offset n : Nat) : FileAssertion DbFile := bytes .idx offset (formatWidth ptrSz n)

/-- A record but for its pointer. -/
def Rec.rest (r : Rec) : FileAssertion DbFile :=
  bytes .idx (r.off + ptrSz) r.tail * bytes .dat r.datoff (r.data ++ [newline])

def headOff : List Rec → Nat
  | [] => 0
  | r :: _ => r.off

/-- Records, each of which points to the next. -/
def chainAt : List Rec → FileAssertion DbFile
  | [] => 1
  | r :: rs => ptrAt r.off (headOff rs) * r.rest * chainAt rs

/-- Records that can be reached from a pointer. -/
def listAt (offset : Nat) (rs : List Rec) : FileAssertion DbFile :=
  ptrAt offset (headOff rs) * chainAt rs

/-- Records up to the last pointer of theirs. -/
def beforeAt : Nat → List Rec → FileAssertion DbFile
  | _, [] => 1
  | offset, r :: rs => ptrAt offset r.off * r.rest * beforeAt r.off rs

def lastOff : Nat → List Rec → Nat
  | offset, [] => offset
  | _, r :: rs => lastOff r.off rs

theorem listAt_append (offset : Nat) (front back : List Rec) :
    listAt offset (front ++ back) = beforeAt offset front * listAt (lastOff offset front) back := by
  induction front generalizing offset with
  | nil => rw [beforeAt, one_mul]; rfl
  | cons r rs ih =>
    have later := ih r.off
    rw [listAt] at later
    rw [List.cons_append, listAt, chainAt, headOff, beforeAt, lastOff]
    calc ptrAt offset r.off * (ptrAt r.off (headOff (rs ++ back)) * r.rest * chainAt (rs ++ back))
        = ptrAt offset r.off * r.rest *
          (ptrAt r.off (headOff (rs ++ back)) * chainAt (rs ++ back)) := by
          ac_rfl
      _ = _ := by rw [later, mul_assoc _ (beforeAt r.off rs)]

/-- The first record of a kind, with what is before and behind it. -/
def cutAt (kind : Rec → Bool) : List Rec → Option (List Rec × Rec × List Rec)
  | [] => none
  | r :: rs =>
    if kind r then some ([], r, rs) else (cutAt kind rs).map
      fun (pre, q, post) => (r :: pre, q, post)

theorem cutAt_eq_none {kind : Rec → Bool} {rs : List Rec} :
    cutAt kind rs = none ↔ ∀ r ∈ rs, kind r = false := by
  induction rs with
  | nil => simp [cutAt]
  | cons r rs ih =>
    rw [cutAt, List.forall_mem_cons, ← ih]
    cases kind r <;> simp

theorem cutAt_eq_some {kind : Rec → Bool} {rs pre post : List Rec} {r : Rec}
    (cut : cutAt kind rs = some (pre, r, post)) :
    rs = pre ++ r :: post ∧ kind r = true ∧ ∀ q ∈ pre, kind q = false := by
  induction rs generalizing pre with
  | nil => cases cut
  | cons q rs ih =>
    rw [cutAt] at cut
    split at cut
    next here =>
      obtain ⟨rfl, rfl, rfl⟩ := cut
      exact ⟨rfl, here, by simp⟩
    next other =>
      obtain ⟨⟨pre', q', post'⟩, cut', same⟩ := Option.map_eq_some_iff.mp cut
      obtain ⟨rfl, rfl, rfl⟩ := same
      obtain ⟨rfl, here, before⟩ := ih cut'
      exact ⟨rfl, here, List.forall_mem_cons.mpr ⟨by simpa using other, before⟩⟩

theorem headOff_le (rs : List Rec) (sound : ∀ r ∈ rs, r.Sound) : headOff rs ≤ ptrMax := by
  cases rs with
  | nil => exact Nat.zero_le _
  | cons r rs => exact (sound r (by simp)).off_le

theorem length_ptr (n : Nat) (fits : n ≤ ptrMax) : (formatWidth ptrSz n).length = ptrSz := by
  rw [ptrMax] at fits
  exact length_formatWidth ptrSz n (by decide) (by rw [ptrSz]; omega)

/-- The record as it is read: the pointer and the length first. -/
theorem record_eq (r : Rec) (n : Nat) (short : r.text.length ≤ idxlenMax) (fits : n ≤ ptrMax) :
    ptrAt r.off n * r.rest =
      bytes .idx r.off (formatWidth ptrSz n ++ formatWidth idxlenSz r.text.length) *
        (bytes .idx (r.off + (ptrSz + idxlenSz)) r.text *
        bytes .dat r.datoff (r.data ++ [newline])) := by
  rw [idxlenMax] at short
  have len : (formatWidth idxlenSz r.text.length).length = idxlenSz :=
    length_formatWidth idxlenSz _ (by decide) (by rw [idxlenSz]; omega)
  rw [ptrAt, Rec.rest, Rec.tail, bytes_append DbFile.idx r.off (formatWidth ptrSz n),
    bytes_append DbFile.idx (r.off + ptrSz), length_ptr n fits, len, ← Nat.add_assoc]
  ac_rfl

end Apue
