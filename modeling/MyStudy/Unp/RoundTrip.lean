import MyStudy.Unp.Groups
import MyStudy.Unp.Shorthand

/-!
# Every address is read back

What `inet_ntop6` writes fits into its buffer, and `inet_pton6` reads the same address from it.
-/
namespace Unp

open Numerals

/-! ### Words -/

/-- The bytes two by two. -/
def pairs : Bytes → List Nat
  | hi :: lo :: src => (hi.toNat * 256 + lo.toNat) :: pairs src
  | _ => []

theorem or_bytes (hi lo : UInt8) :
    0 ||| hi.toNat <<< 8 ||| lo.toNat <<< 0 = hi.toNat * 256 + lo.toNat := by
  have small := lo.toNat_lt
  rw [Nat.zero_or, Nat.shiftLeft_zero, Nat.shiftLeft_eq, Nat.mul_comm,
    ← Nat.two_pow_add_eq_or_of_lt small]

theorem words_eq : ∀ src : Bytes, src.length = 16 → words src = pairs src
  | [b₀, b₁, b₂, b₃, b₄, b₅, b₆, b₇, b₈, b₉, b₁₀, b₁₁, b₁₂, b₁₃, b₁₄, b₁₅], _ => by
    simp only [pairs, ← or_bytes]
    rfl

theorem word_pair (hi lo : UInt8) : word (hi.toNat * 256 + lo.toNat) = [hi, lo] := by
  have first := hi.toNat_lt
  have second := lo.toNat_lt
  rw [word, Nat.shiftRight_eq_div_pow, show 255 = 2 ^ 8 - 1 by rfl, Nat.and_two_pow_sub_one_eq_mod,
    Nat.and_two_pow_sub_one_eq_mod]
  simp only [List.cons.injEq, and_true, ← UInt8.toNat_inj, UInt8.toNat_ofNat']
  omega

def bytesOf (ws : List Nat) : Bytes := ws.flatMap word

theorem length_bytesOf (ws : List Nat) : (bytesOf ws).length = 2 * ws.length := by
  induction ws with
  | nil => rfl
  | cons w ws ih =>
    rw [bytesOf, List.flatMap_cons, List.length_append, length_word, List.length_cons]
    have rest : (List.flatMap word ws).length = 2 * ws.length := ih
    omega

theorem bytesOf_append (vs ws : List Nat) : bytesOf (vs ++ ws) = bytesOf vs ++ bytesOf ws :=
  List.flatMap_append

theorem bytesOf_zeros (n : Nat) : bytesOf (List.replicate n 0) = List.replicate (2 * n) 0 := by
  induction n with
  | zero => rfl
  | succ n ih =>
    rw [List.replicate_succ, bytesOf, List.flatMap_cons,
      show List.flatMap word (List.replicate n 0) = _ from ih, Nat.mul_succ, Nat.add_comm,
      List.replicate_add]
    rfl

theorem bytesOf_pairs : ∀ src : Bytes, 2 ∣ src.length → bytesOf (pairs src) = src
  | [], _ => rfl
  | [_], even => absurd (show 2 ∣ 1 from even) (by decide)
  | hi :: lo :: src, even => by
    have rest : 2 ∣ src.length := by
      rw [List.length_cons, List.length_cons] at even
      omega
    rw [pairs, bytesOf, List.flatMap_cons, word_pair,
      show List.flatMap word (pairs src) = _ from bytesOf_pairs src rest]
    rfl

theorem length_pairs : ∀ src : Bytes, (pairs src).length = src.length / 2
  | [] => rfl
  | [_] => show 0 = 1 / 2 from rfl
  | hi :: lo :: src => by
    rw [pairs, List.length_cons, length_pairs src, List.length_cons, List.length_cons]
    omega

theorem pairs_lt : ∀ (src : Bytes), ∀ w ∈ pairs src, w ≤ 0xffff
  | [] => nofun
  | [_] => nofun
  | hi :: lo :: src => by
    have first := hi.toNat_lt
    have second := lo.toNat_lt
    rw [pairs]
    exact List.forall_mem_cons.mpr ⟨by omega, pairs_lt src⟩

/-! ### Groups with `:` between them -/

theorem xdigit_xdigitByte : ∀ d, d < 16 → xdigit (xdigitByte d) = some d := by decide

theorem group_hexText {w : Nat} (small : w ≤ 0xffff) : Group (hexText w) w :=
  number_write (by decide) xdigit_xdigitByte small

theorem length_hexText {w : Nat} (small : w ≤ 0xffff) : (hexText w).length ≤ 4 :=
  length_write_le (by decide) (by decide) (Nat.lt_succ_of_le small)

/-- Each with `:` before it. -/
def apart (ws : List Nat) : Bytes := ws.flatMap fun w => 58 :: hexText w

/-- With `:` between them. -/
def join (ws : List Nat) : Bytes := (apart ws).tail

theorem apart_cons (w : Nat) (ws : List Nat) : apart (w :: ws) = 58 :: (hexText w ++ apart ws) :=
  rfl

theorem join_cons (w : Nat) (ws : List Nat) : join (w :: ws) = hexText w ++ apart ws := rfl

theorem length_apart {ws : List Nat} (small : ∀ w ∈ ws, w ≤ 0xffff) :
    (apart ws).length ≤ 5 * ws.length := by
  induction ws with
  | nil => rfl
  | cons w ws ih =>
    obtain ⟨here, rest⟩ := List.forall_mem_cons.mp small
    have first := length_hexText here
    have others := ih rest
    rw [apart_cons, List.length_cons, List.length_append, List.length_cons]
    omega

/-- Groups behind others. -/
theorem tail_join {ws : List Nat} (some_ : ws ≠ []) (small : ∀ w ∈ ws, w ≤ 0xffff) :
    Tail (join ws) (bytesOf ws) := by
  induction ws with
  | nil => exact absurd rfl some_
  | cons w ws ih =>
    obtain ⟨here, rest⟩ := List.forall_mem_cons.mp small
    cases ws with
    | nil =>
      rw [join_cons, bytesOf, List.flatMap_singleton, apart, List.flatMap_nil, List.append_nil]
      exact .group (group_hexText here)
    | cons v ws => exact .cons (group_hexText here) (ih nofun rest)

/-- Groups before the rest of a text. -/
theorem whole_join {ws : List Nat} {s l : Bytes} {r : Option Bytes} (some_ : ws ≠ [])
    (small : ∀ w ∈ ws, w ≤ 0xffff) (whole : Whole s l r) :
    Whole (join ws ++ 58 :: s) (bytesOf ws ++ l) r := by
  induction ws with
  | nil => exact absurd rfl some_
  | cons w ws ih =>
    obtain ⟨here, rest⟩ := List.forall_mem_cons.mp small
    cases ws with
    | nil =>
      rw [join_cons, bytesOf, List.flatMap_singleton, apart, List.flatMap_nil, List.append_nil]
      exact .cons (group_hexText here) whole
    | cons v ws =>
      have later := Whole.cons (group_hexText here) (ih nofun rest)
      rw [join_cons, apart_cons, List.append_assoc, List.cons_append]
      rw [← List.append_assoc] at later
      exact later

theorem head_hexText {w : Nat} (small : w ≤ 0xffff) (s : Bytes) :
    (hexText w ++ s).head? ≠ some 58 := by
  intro first
  cases is : hexText w with
  | nil => exact write_ne_nil 16 xdigitByte w is
  | cons b t =>
    rw [is] at first
    obtain rfl := Option.some.inj first
    have digit := (group_hexText small).digits 58 (by rw [is]; exact List.mem_cons_self)
    simp [xdigit_colon] at digit

/-! ### The text -/

section Format

variable {src out : Bytes} {ws : List Nat} {best : Option Run} {run : Run} {i k m : Nat}

/-- Where an IPv4 address follows. -/
def Encapsulates (ws : List Nat) (best : Option Run) : Prop :=
  best.any (fun best => best.base = 0 ∧ (best.len = 6 ∨ best.len = 5 ∧ ws.getD 5 0 = 0xffff)) = true

/-- Words that `::` does not stand for. -/
theorem format_plain (src : Bytes) (out : Bytes) (i k m : Nat)
    (outside : ∀ run, best = some run → i + k ≤ run.base ∨ run.base + run.len ≤ i)
    (fits : i + k ≤ ws.length) (no4 : Encapsulates ws best → 6 < i ∨ i + k ≤ 6) :
    formatLoop src ws best (k + m) i out =
      formatLoop src ws best m (i + k)
        (out ++ if i = 0 then join ((ws.drop i).take k) else apart ((ws.drop i).take k)) := by
  induction k generalizing i out with
  | zero => simp [join, apart]
  | succ k ih =>
    have here : (best.filter fun best => best.base ≤ i ∧ i < best.base + best.len) = none := by
      cases best with
      | none => rfl
      | some run =>
        have beside := outside run rfl
        have out : ¬ (run.base ≤ i ∧ i < run.base + run.len) := by omega
        exact Option.filter_some_neg (by simpa using out)
    have plain : ¬ (i = 6 ∧ Encapsulates ws best) := by
      rintro ⟨rfl, encapsulates⟩
      have := no4 encapsulates
      omega
    have next := ih ((if i ≠ 0 then out ++ [58] else out) ++ hexText (ws.getD i 0)) (i + 1)
      (fun run its => by have := outside run its; omega) (by omega)
      (fun encapsulates => by have := no4 encapsulates; omega)
    have first : (ws.drop i).take (k + 1) = ws.getD i 0 :: (ws.drop (i + 1)).take k := by
      rw [List.drop_eq_getElem_cons (by omega), List.take_succ_cons, List.getD_eq_getElem?_getD,
        List.getElem?_eq_getElem (by omega), Option.getD_some]
    rw [Encapsulates] at plain
    rw [show k + 1 + m = k + m + 1 by omega, formatLoop, here]
    simp only [if_neg plain]
    rw [next, first, show i + 1 + k = i + (k + 1) by omega, if_neg (Nat.succ_ne_zero i), join_cons,
      apart_cons]
    by_cases start : i = 0
    · rw [if_neg (not_not.mpr start), if_pos start, List.append_assoc]
    · rw [if_pos start, if_neg start, List.append_assoc, List.append_assoc]
      rfl

/-- The words that `::` stands for. -/
theorem format_run (src : Bytes) (ws : List Nat) (out : Bytes) (i k m : Nat) (base : run.base ≤ i)
    (within : i + k ≤ run.base + run.len) (some_ : 0 < k) :
    formatLoop src ws (some run) (k + m) i out =
      formatLoop src ws (some run) m (i + k) (if i = run.base then out ++ [58] else out) := by
  induction k generalizing i out with
  | zero => omega
  | succ k ih =>
    have here : ((some run).filter fun best => best.base ≤ i ∧ i < best.base + best.len) =
        some run :=
      Option.filter_some_pos (decide_eq_true_eq.mpr (by omega))
    rw [show k + 1 + m = k + m + 1 by omega, formatLoop, here]
    simp only
    cases k with
    | zero => rw [Nat.zero_add]
    | succ k =>
      rw [ih _ _ (by omega) (by omega) (Nat.succ_pos k), if_neg (by omega),
        show i + 1 + (k + 1) = i + (k + 1 + 1) by omega]

/-- An IPv4 address is the rest of the text. -/
theorem format_at6 (base : run.base + run.len ≤ 6) (encapsulates : Encapsulates ws (some run))
    (short : out.length ≤ 6) :
    formatLoop src ws (some run) (m + 1) 6 out = some (out ++ [58] ++ dotted (src.drop 12)) := by
  have bound := length_dotted (src.drop 12)
  have out' : ¬ (run.base ≤ 6 ∧ 6 < run.base + run.len) := by omega
  have here : ((some run).filter fun best => best.base ≤ 6 ∧ 6 < best.base + best.len) = none :=
    Option.filter_some_neg (by simpa using out')
  have room : tmpSz - (out ++ [58]).length = 45 - out.length := by
    rw [List.length_append, List.length_singleton, tmpSz]
    omega
  have fits : inet_ntop4 (src.drop 12) (45 - out.length) = .text (dotted (src.drop 12)) := by
    rw [inet_ntop4, if_neg (by omega), strcpy, if_pos (by omega)]
  rw [Encapsulates] at encapsulates
  rw [formatLoop, here]
  simp only [encapsulates, ne_eq, OfNat.ofNat_ne_zero, not_false_eq_true, and_self, if_true, room,
    fits]

end Format

section Address

variable {src : Bytes} {ws : List Nat} {run : Run}

/-- The text of an address. -/
def text6 (src : Bytes) (ws : List Nat) : Option Run → Bytes
  | none => join ws
  | some run =>
    if run.base = 0 ∧ run.len = 6 then 58 :: 58 :: dotted (src.drop 12)
    else if run.base = 0 ∧ run.len = 5 ∧ ws.getD 5 0 = 0xffff then
      58 :: 58 :: (hexText 0xffff ++ 58 :: dotted (src.drop 12))
    else join (ws.take run.base) ++ 58 :: (apart (ws.drop (run.base + run.len)) ++
      if run.base + run.len = 8 then [58] else [])

theorem format_six (first : run.base = 0) (length : run.len = 6) :
    formatLoop src ws (some run) 8 0 [] = some (58 :: 58 :: dotted (src.drop 12)) := by
  have encapsulates : Encapsulates ws (some run) := by simp [Encapsulates, first, length]
  have zeros := format_run src ws [] 0 6 2 (show run.base ≤ 0 by omega) (by omega) (by omega)
  rw [if_pos first.symm] at zeros
  exact zeros.trans (format_at6 (by omega) encapsulates (by decide))

theorem format_five (eight : ws.length = 8) (first : run.base = 0) (length : run.len = 5)
    (mapped : ws.getD 5 0 = 0xffff) :
    formatLoop src ws (some run) 8 0 [] =
      some (58 :: 58 :: (hexText 0xffff ++ 58 :: dotted (src.drop 12))) := by
  have encapsulates : Encapsulates ws (some run) := by
    rw [Encapsulates, Option.any_some, decide_eq_true_eq]
    exact ⟨first, .inr ⟨length, mapped⟩⟩
  have after : ∀ r, some run = some r → 5 + 1 ≤ r.base ∨ r.base + r.len ≤ 5 := by
    rintro _ ⟨⟩
    omega
  have zeros := format_run src ws [] 0 5 3 (show run.base ≤ 0 by omega) (by omega) (by omega)
  have next := format_plain src [58] 5 1 2 after (show 5 + 1 ≤ ws.length by omega) fun _ => by omega
  have word : (ws.drop 5).take 1 = [0xffff] := by
    rw [List.drop_eq_getElem_cons (by omega), List.take_succ_cons, List.take_zero, ← mapped,
      List.getD_eq_getElem?_getD,
      List.getElem?_eq_getElem (by omega), Option.getD_some]
  have hex : apart [0xffff] = 58 :: hexText 0xffff := by
    rw [apart_cons, apart, List.flatMap_nil, List.append_nil]
  have short : ([58] ++ 58 :: hexText 0xffff).length ≤ 6 := by
    have four := length_hexText (w := 0xffff) le_rfl
    simp only [List.length_append, List.length_cons, List.length_nil]
    omega
  rw [if_pos first.symm] at zeros
  rw [if_neg (by decide), word, hex] at next
  refine (zeros.trans next).trans ((format_at6 (by omega) encapsulates short).trans ?_)
  simp

/-- Words, `::` and words. -/
theorem format_other (eight : ws.length = 8) (within : run.base + run.len ≤ 8) (two : 2 ≤ run.len)
    (no4 : ¬ Encapsulates ws (some run)) :
    formatLoop src ws (some run) 8 0 [] =
      some (join (ws.take run.base) ++ 58 :: apart (ws.drop (run.base + run.len))) := by
  obtain ⟨m, count⟩ : ∃ m, 8 = run.base + (run.len + m) := ⟨8 - (run.base + run.len), by omega⟩
  have before : ∀ r, some run = some r → 0 + run.base ≤ r.base ∨ r.base + r.len ≤ 0 := by
    rintro _ ⟨⟩
    omega
  have after : ∀ r, some run = some r → run.base + run.len + m ≤ r.base ∨
      r.base + r.len ≤ run.base + run.len := by
    rintro _ ⟨⟩
    omega
  have front :=
    format_plain src [] 0 run.base (run.len + m) before (show 0 + run.base ≤ ws.length by omega)
    fun encapsulates => absurd encapsulates no4
  have zeros :=
    format_run src ws (join (ws.take run.base)) run.base run.len m le_rfl le_rfl (by omega)
  have rest := format_plain src (join (ws.take run.base) ++ [58]) (run.base + run.len) m 0 after
    (show run.base + run.len + m ≤ ws.length by omega) fun encapsulates => absurd encapsulates no4
  rw [if_pos rfl, Nat.zero_add, List.nil_append, List.drop_zero, ← count] at front
  rw [if_pos rfl] at zeros
  rw [if_neg (by omega),
    List.take_of_length_le (l := ws.drop (run.base + run.len)) (by rw [List.length_drop]; omega),
    Nat.add_zero] at rest
  rw [front, zeros, rest, formatLoop, List.append_assoc]
  rfl

theorem format6_eq (eight : (words src).length = 8)
    (bounded : ∀ run, shorthand (words src) = some run → run.base + run.len ≤ 8 ∧ 2 ≤ run.len) :
    format6 src = some (text6 src (words src) (shorthand (words src))) := by
  rw [format6, show in6AddrSz / int16Sz = 8 from rfl]
  generalize words src = ws at *
  cases its : shorthand ws with
  | none =>
    have no4 (encapsulates : Encapsulates ws none) : 6 < 0 ∨ 0 + 8 ≤ 6 := by cases encapsulates
    have outside : ∀ r, (none : Option Run) = some r → 0 + 8 ≤ r.base ∨ r.base + r.len ≤ 0 := nofun
    have all := format_plain src [] 0 8 0 outside eight.ge no4
    rw [if_pos rfl, List.drop_zero, List.nil_append, List.take_of_length_le eight.le] at all
    rw [all]
    rfl
  | some run =>
    obtain ⟨within, two⟩ := bounded run its
    rw [text6]
    by_cases six : run.base = 0 ∧ run.len = 6
    · rw [if_pos six, format_six six.1 six.2]
      simp [six]
    · by_cases five : run.base = 0 ∧ run.len = 5 ∧ ws.getD 5 0 = 0xffff
      · rw [if_neg six, if_pos five, format_five eight five.1 five.2.1 five.2.2]
        simp [five]
      · have no4 : ¬ Encapsulates ws (some run) := by
          rw [Encapsulates, Option.any_some, decide_eq_true_eq]
          rintro ⟨first, long | more⟩
          · exact six ⟨first, long⟩
          · exact five ⟨first, more⟩
        rw [if_neg six, if_neg five, format_other eight within two no4]
        by_cases end_ : run.base + run.len = 8
        · simp [end_]
        · simp [end_]

/-- The bytes that `::` stands for. -/
theorem bytesOf_run (zeros : Zeros ws run) (within : run.base + run.len ≤ ws.length) :
    bytesOf ws =
      bytesOf (ws.take run.base) ++ List.replicate (2 * run.len) 0 ++
      bytesOf (ws.drop (run.base + run.len)) := by
  have middle : (ws.drop run.base).take run.len = List.replicate run.len 0 := by
    refine List.eq_replicate_iff.mpr
      ⟨by rw [List.length_take, List.length_drop]; omega, fun w member => ?_⟩
    obtain ⟨j, bound, is⟩ := List.mem_iff_getElem.mp member
    rw [List.length_take, List.length_drop] at bound
    rw [List.getElem_take, List.getElem_drop] at is
    have zero := zeros (run.base + j) (by omega) (by omega)
    rw [List.getElem?_eq_getElem (by omega), is] at zero
    exact Option.some.inj zero
  have split : ws = ws.take run.base ++
      (List.replicate run.len 0 ++ ws.drop (run.base + run.len)) := by
    rw [← middle, ← List.drop_drop, List.take_append_drop, List.take_append_drop]
  conv_lhs => rw [split]
  rw [bytesOf_append, bytesOf_append, bytesOf_zeros, List.append_assoc]

/-! ### The text is read -/

theorem dotted_drop (sixteen : src.length = 16) :
    Dotted 4 (dotted (src.drop 12)) (src.drop 12) := by
  obtain ⟨a, b, c, d, is⟩ :=
    List.length_eq_four.mp (show (src.drop 12).length = 4 by rw [List.length_drop, sixteen])
  rw [is]
  exact dotted_dotted a b c d

/-- Groups at the end, or nothing. -/
theorem tail_apart (small : ∀ w ∈ ws, w ≤ 0xffff) :
    ∃ t, (apart ws ++ if ws = [] then [58] else []) = 58 :: t ∧ Tail t (bytesOf ws) := by
  cases ws with
  | nil => exact ⟨[], rfl, .nothing⟩
  | cons w ws => exact ⟨join (w :: ws), by simp [apart_cons, join_cons], tail_join nofun small⟩

theorem assemble_gap {l r : Bytes} {n : Nat} (some_ : 0 < n)
    (total : l.length + n + r.length = 16) :
    assemble l (some r) = some (l ++ List.replicate n 0 ++ r) := by
  rw [assemble, if_neg (by omega), if_neg (by omega), show 16 - (l.length + r.length) = n by omega]

theorem read_text6 (sixteen : src.length = 16) (bytes : bytesOf ws = src) (eight : ws.length = 8)
    (small : ∀ w ∈ ws, w ≤ 0xffff) {best : Option Run}
    (zeros : ∀ run, best = some run → Zeros ws run ∧ run.base + run.len ≤ 8 ∧ 2 ≤ run.len) :
    ∃ l r, Address (text6 src ws best) l r ∧ assemble l r = some src := by
  cases best with
  | none =>
    obtain ⟨w, vs, rfl⟩ := List.exists_cons_of_length_eq_add_one eight
    refine ⟨bytesOf (w :: vs), none, .plain (head_hexText (small w List.mem_cons_self) _)
      (.full (tail_join nofun small)), ?_⟩
    rw [bytes, assemble, if_pos sixteen]
  | some run =>
    obtain ⟨zeros, within, two⟩ := zeros run rfl
    have all := bytesOf_run zeros (by rw [eight]; exact within)
    have behind : src.drop 12 = bytesOf (ws.drop 6) := by
      have split := bytesOf_append (ws.take 6) (ws.drop 6)
      rw [List.take_append_drop, bytes] at split
      rw [split, List.drop_left' (by rw [length_bytesOf, List.length_take, eight]; rfl)]
    have four : (bytesOf (ws.drop 6)).length = 4 := by rw [length_bytesOf, List.length_drop, eight]
    rw [bytes] at all
    rw [text6]
    by_cases six : run.base = 0 ∧ run.len = 6
    · obtain ⟨first, length⟩ := six
      rw [first, length, List.take_zero] at all
      refine ⟨[], some (src.drop 12), ?_, ?_⟩
      · rw [if_pos ⟨first, length⟩]
        exact .leading (.dotted (dotted_drop sixteen))
      · rw [behind, assemble_gap (n := 12) (by decide) (by rw [four]; rfl)]
        exact congrArg some all.symm
    · by_cases five : run.base = 0 ∧ run.len = 5 ∧ ws.getD 5 0 = 0xffff
      · obtain ⟨first, length, mapped⟩ := five
        have rest : ws.drop 5 = 0xffff :: ws.drop 6 := by
          rw [List.drop_eq_getElem_cons (by omega), ← mapped, List.getD_eq_getElem?_getD,
            List.getElem?_eq_getElem (by omega), Option.getD_some]
        rw [first, length, List.take_zero, rest] at all
        refine ⟨[], some (word 0xffff ++ src.drop 12), ?_, ?_⟩
        · rw [if_neg six, if_pos ⟨first, length, mapped⟩]
          exact .leading (.cons (group_hexText le_rfl) (.dotted (dotted_drop sixteen)))
        · rw [behind, assemble_gap (n := 10) (by decide) (by rw [List.length_append, four]; rfl)]
          exact congrArg some all.symm
      · have frontSmall : ∀ w ∈ ws.take run.base, w ≤ 0xffff :=
          fun w member => small w (List.mem_of_mem_take member)
        have backSmall : ∀ w ∈ ws.drop (run.base + run.len), w ≤ 0xffff := fun w member =>
          small w (List.mem_of_mem_drop member)
        have frontLength : (bytesOf (ws.take run.base)).length = 2 * run.base := by
          rw [length_bytesOf, List.length_take, eight, Nat.min_eq_left (by omega)]
        have backLength : (bytesOf (ws.drop (run.base + run.len))).length =
            2 * (8 - (run.base + run.len)) := by
          rw [length_bytesOf, List.length_drop, eight]
        have ends : run.base + run.len = 8 ↔ ws.drop (run.base + run.len) = [] := by
          rw [List.drop_eq_nil_iff, eight]
          omega
        obtain ⟨t, is, tail⟩ := tail_apart backSmall
        rw [if_neg six, if_neg five, if_congr ends rfl rfl, is]
        refine ⟨bytesOf (ws.take run.base), some (bytesOf (ws.drop (run.base + run.len))), ?_, ?_⟩
        · cases front : ws.take run.base with
          | nil => exact .leading tail
          | cons w vs =>
            rw [front] at frontSmall
            have whole := whole_join (List.cons_ne_nil w vs) frontSmall (.gap tail)
            rw [List.append_nil] at whole
            refine .plain ?_ whole
            rw [join_cons, List.append_assoc]
            exact head_hexText (frontSmall w List.mem_cons_self) _
        · rw [assemble_gap (n := 2 * run.len) (by omega) (by omega)]
          exact congrArg some all.symm

/-! ### Every address -/

theorem length_text6 (small : ∀ w ∈ ws, w ≤ 0xffff) (eight : ws.length = 8) (best : Option Run)
    (two : ∀ run, best = some run → 2 ≤ run.len ∧ run.base + run.len ≤ 8) :
    (text6 src ws best).length ≤ 45 := by
  have bound := length_dotted (src.drop 12)
  cases best with
  | none =>
    have all := length_apart small
    rw [text6, join, List.length_tail]
    omega
  | some run =>
    obtain ⟨two, within⟩ := two run rfl
    rw [text6]
    split
    · simp only [List.length_cons]
      omega
    · split
      · have four := length_hexText (w := 0xffff) le_rfl
        simp only [List.length_cons, List.length_append]
        omega
      · have front := length_apart fun w (member : w ∈ ws.take run.base) =>
          small w (List.mem_of_mem_take member)
        have back := length_apart fun w (member : w ∈ ws.drop (run.base + run.len)) =>
          small w (List.mem_of_mem_drop member)
        have last : (if run.base + run.len = 8 then [(58 : UInt8)] else []).length ≤ 1 := by
          split <;> decide
        rw [List.length_take, eight] at front
        rw [List.length_drop, eight] at back
        simp only [join, List.length_append, List.length_cons, List.length_tail]
        omega

end Address

section Every

variable (a : Vector UInt8 16)

theorem words_vector : words a.toList = pairs a.toList := words_eq a.toList a.length_toList

theorem length_words : (words a.toList).length = 8 := by
  rw [words_vector, length_pairs, a.length_toList]

theorem words_small : ∀ w ∈ words a.toList, w ≤ 0xffff := by
  rw [words_vector]
  exact pairs_lt a.toList

theorem run_of_words {run : Run} (its : shorthand (words a.toList) = some run) :
    Zeros (words a.toList) run ∧ run.base + run.len ≤ 8 ∧ 2 ≤ run.len := by
  rw [← length_words a]
  exact zeros_of_shorthand its

theorem format6_vector :
    format6 a.toList = some (text6 a.toList (words a.toList) (shorthand (words a.toList))) :=
  format6_eq (length_words a) fun _ its => (run_of_words a its).2

/-- What `inet_ntop6` writes of any address fits, is read by `inet_pton6`, and gives the same
address. -/
theorem inet_pton6_inet_ntop6 :
    ∃ text : Bytes, text.length ≤ 45 ∧
      (∀ size, inet_ntop6 a.toList size = if text.length < size then .text text else .null) ∧
      inet_pton6 text = .one a.toList := by
  have bytes : bytesOf (words a.toList) = a.toList := by
    rw [words_vector]
    exact bytesOf_pairs a.toList (by rw [a.length_toList]; decide)
  obtain ⟨l, r, address, its⟩ :=
    read_text6 a.length_toList bytes (length_words a) (words_small a)
      fun _ its => run_of_words a its
  refine ⟨_, length_text6 (words_small a) (length_words a) _
    fun _ its => (run_of_words a its).2.symm, fun size => ?_,
    (inet_pton6_eq_one _ _).mpr ⟨l, r, address, its⟩⟩
  rw [inet_ntop6, format6_vector a]
  simp only [strcpy]
  split
  · next short => rw [if_neg (by omega)]
  · next fits => rw [if_pos (by omega), if_pos (by omega)]

/-- `::` stands for the first of the longest runs of two or more words that are 0, and an IPv4
address is written only behind it. -/
theorem inet_ntop6_shortens :
    ∃ best, format6 a.toList = some (text6 a.toList (pairs a.toList) best) ∧
      Shortens (pairs a.toList) best := by
  rw [← words_vector]
  exact ⟨_, format6_vector a, shorthand_shortens _⟩

end Every

/-- `inet_pton6` accepts the texts of addresses, and stores nothing outside its arrays. -/
theorem inet_pton6_accepts (src : Bytes) :
    inet_pton6 src ≠ .fault ∧ ∀ a, inet_pton6 src = .one a ↔ ∃ l r, Address src l r ∧
      assemble l r = some a :=
  ⟨inet_pton6_ne_fault src, inet_pton6_eq_one src⟩

/-! ### IPv4 -/

theorem inet_aton_of_dotted {src dst : Bytes} (dotted : Dotted 4 src dst) :
    inet_aton src = some dst :=
  (inet_aton_eq_some src dst).mpr ⟨4, dst, le_rfl, dotted.parts, by simp⟩

/-- `inet_pton4` and `inet_aton` accept numbers with dots between them: the one four of them, the
other one up to four that may be empty, and what the one accepts is the same address for both. -/
theorem inet_pton4_accepts (src : Bytes) :
    inet_pton4 src ≠ .fault ∧
      (∀ dst, inet_pton4 src = .one dst ↔ Dotted 4 src dst) ∧
      (∀ dst, inet_aton src = some dst ↔
        ∃ k front, k ≤ 4 ∧ Parts k src front ∧ dst = front ++ List.replicate (4 - k) 0) ∧
      ∀ dst, inet_pton4 src = .one dst → inet_aton src = some dst :=
  ⟨inet_pton4_ne_fault src, inet_pton4_eq_one src, inet_aton_eq_some src,
    fun dst accepts => inet_aton_of_dotted ((inet_pton4_eq_one src dst).mp accepts)⟩

/-- What `inet_ntop4` writes is read again by both. Where `size` leaves no place for the NUL, it is
written behind `dst`. -/
theorem inet_pton4_inet_ntop4 (a : Vector UInt8 4) :
    ∃ text : Bytes, text.length ≤ 15 ∧
      (∀ size, inet_ntop4 a.toList size =
        if size < text.length then .null else if size = text.length then .fault else .text text) ∧
      inet_pton4 text = .one a.toList ∧ inet_aton text = some a.toList := by
  obtain ⟨b, c, d, e, is⟩ := List.length_eq_four.mp a.length_toList
  rw [is]
  refine ⟨dotted [b, c, d, e], length_dotted _, fun size => ?_,
    (inet_pton4_eq_one _ _).mpr (dotted_dotted b c d e),
    inet_aton_of_dotted (dotted_dotted b c d e)⟩
  rw [inet_ntop4, strcpy]
  split
  · rfl
  · next long =>
    by_cases exact_ : size = (dotted [b, c, d, e]).length
    · rw [if_pos exact_, if_neg (by omega)]
    · rw [if_neg exact_, if_pos (by omega)]

end Unp
