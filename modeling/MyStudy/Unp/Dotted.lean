import MyStudy.Unp.Inet

/-!
# Four octets

`inet_pton4` accepts four numbers up to 255 with dots between them, and what `inet_ntop4` writes.
-/
namespace Unp

open Numerals

def digit (b : UInt8) : Option Nat := digits.idxOf? b

def Octet (t : Bytes) (n : Nat) : Prop := Number digit 10 255 t n

/-- Octets with dots between them. -/
inductive Dotted : Nat → Bytes → Bytes → Prop where
  | last {t : Bytes} {n : Nat} : Octet t n → Dotted 1 t [UInt8.ofNat n]
  | more {k : Nat} {t s dst : Bytes} {n : Nat} : Octet t n → Dotted k s dst →
    Dotted (k + 1) (t ++ 46 :: s) (UInt8.ofNat n :: dst)

theorem digit_dot : digit 46 = none := rfl

theorem digit_eq_some {b : UInt8} {d : Nat} (its : digit b = some d) : d < 10 :=
  (List.findIdx?_eq_some_iff_findIdx_eq.mp its).1

variable {k n : Nat} {t s dst : Bytes}

theorem Dotted.length (dotted : Dotted k t dst) : dst.length = k := by
  induction dotted with
  | last _ => rfl
  | more _ _ ih => rw [List.length_cons, ih]

/-! ### How a text begins -/

theorem dotted_digits (all : ∀ b ∈ t, (digit b).isSome) :
    Dotted k t dst ↔ ∃ n, k = 1 ∧ dst = [UInt8.ofNat n] ∧ Octet t n := by
  constructor
  · intro dotted
    cases dotted with
    | last octet => exact ⟨_, rfl, rfl, octet⟩
    | more octet _ => exact absurd rfl (no_split all (by simp [digit_dot]))
  · rintro ⟨n, rfl, rfl, octet⟩
    exact .last octet

theorem dotted_stop {c : UInt8} (all : ∀ b ∈ t, (digit b).isSome) (stop : digit c = none) :
    Dotted k (t ++ c :: s) dst ↔
      ∃ n k' dst', k = k' + 1 ∧ dst = UInt8.ofNat n :: dst' ∧ c = 46 ∧ Octet t n ∧
      Dotted k' s dst' := by
  constructor
  · intro dotted
    generalize same : t ++ c :: s = text at dotted
    cases dotted with
    | last octet => exact absurd same.symm (no_split octet.digits (by simp [stop]))
    | more octet rest =>
      obtain ⟨rfl, rfl, rfl⟩ :=
        split_unique all octet.digits (by simp [stop]) (by simp [digit_dot]) same
      exact ⟨_, _, _, rfl, rfl, rfl, octet, rest⟩
  · rintro ⟨n, k', dst', rfl, rfl, rfl, octet, rest⟩
    exact .more octet rest

/-- The digits at the front are those of the first octet, or the first of them. -/
theorem Dotted.front {tok src : Bytes} (dotted : Dotted k (tok ++ src) dst)
    (all : ∀ b ∈ tok, (digit b).isSome) :
    ∃ more n, Octet (tok ++ more) n := by
  generalize same : tok ++ src = text at dotted
  cases dotted with
  | last octet => exact ⟨src, _, same ▸ octet⟩
  | more octet rest =>
    rcases List.append_eq_append_iff.mp same with ⟨more, rfl, -⟩ | ⟨more, rfl, its⟩
    · exact ⟨more, _, octet⟩
    · cases more with
      | nil => exact ⟨[], _, by simpa using octet⟩
      | cons c more =>
        obtain ⟨rfl, -⟩ := List.cons.inj its
        simpa [digit_dot] using all 46 (by simp)

/-! ### What is accepted -/

/-- The loop in the middle of an octet: those before it are stored, and its digits so far are
`tok`. -/
structure Within (st : State4) (front : Bytes) (tok : Bytes) (v : Nat) : Prop where
  room : front.length ≤ 3
  tmp : st.tmp = front ++ UInt8.ofNat v :: List.replicate (3 - front.length) 0
  tp : st.tp = front.length
  octets : st.octets = front.length + if tok = [] then 0 else 1
  saw : st.sawDigit = !tok.isEmpty
  reads : readFrom digit 10 0 tok = some v
  small : v ≤ 255

variable {st : State4} {front tok src : Bytes} {v : Nat}

theorem Within.here (within : Within st front tok v) : st.tmp[st.tp]? = some (UInt8.ofNat v) := by
  rw [within.tmp, within.tp]
  simp

theorem Within.all_digits (within : Within st front tok v) : ∀ b ∈ tok, (digit b).isSome :=
  digits_of_readFrom within.reads

/-- Another digit. -/
theorem Within.next_digit (within : Within st front tok v) {ch : UInt8} {d : Nat}
    (its : digit ch = some d) (small : v * 10 + d ≤ 255) :
    Within ⟨st.tmp.set st.tp (UInt8.ofNat (v * 10 + d)), st.tp, front.length + 1, true⟩ front
      (tok ++ [ch])
    (v * 10 + d) := by
  refine ⟨within.room, ?_, within.tp, by simp, by simp, ?_, small⟩
  · rw [within.tmp, within.tp]
    simp
  · rw [readFrom_append, within.reads, Option.bind_some, readFrom, its]
    rfl

/-- What is stored takes the place of as much. -/
theorem store_middle {a b c b' : Bytes} (same : b'.length = b.length) :
    store (a ++ (b ++ c)) a.length b' = some (a ++ (b' ++ c)) := by
  rw [store, if_pos (by simp only [List.length_append]; omega), List.take_left, same,
    ← List.append_assoc a b c, ← List.length_append, List.drop_left, List.append_assoc]

/-- A dot behind a digit. -/
theorem Within.dot (within : Within st front tok v) (saw : tok ≠ []) (more : front.length + 1 ≠ 4) :
    ∃ tmp, store st.tmp (st.tp + 1) [0] = some tmp ∧
      Within ⟨tmp, st.tp + 1, st.octets, false⟩ (front ++ [UInt8.ofNat v]) [] 0 := by
  have room := within.room
  obtain ⟨m, count⟩ : ∃ m, 3 - front.length = m + 1 := ⟨2 - front.length, by omega⟩
  have tmp : st.tmp = front ++ [UInt8.ofNat v] ++ ([0] ++ List.replicate m 0) := by
    rw [within.tmp, count, List.replicate_succ]
    simp
  have tp : st.tp + 1 = (front ++ [UInt8.ofNat v]).length := by
    rw [within.tp, List.length_append, List.length_singleton]
  refine ⟨_, by rw [tmp, tp]; exact store_middle rfl, ?_, ?_, tp, ?_, rfl, rfl, by omega⟩
  · rw [← tp, within.tp]
    omega
  · rw [← tp, within.tp, show 3 - (front.length + 1) = m by omega]
    rfl
  · rw [within.octets, if_neg saw, ← tp, within.tp]
    rfl

/-- What the loop does with a byte. -/
theorem Within.step (within : Within st front tok v) (ch : UInt8) :
    (∃ d st', digit ch = some d ∧ Within st' front (tok ++ [ch]) (v * 10 + d) ∧
      ∀ src, pton4Loop st (ch :: src) = pton4Loop st' src) ∨
    (∃ st', ch = 46 ∧ tok ≠ [] ∧ front.length + 1 ≠ 4 ∧ Within st' (front ++ [UInt8.ofNat v]) [] 0 ∧
      ∀ src, pton4Loop st (ch :: src) = pton4Loop st' src) ∨
    (((∃ d, digit ch = some d ∧ 255 < v * 10 + d) ∨
        digit ch = none ∧ (ch = 46 → tok ≠ [] → front.length + 1 = 4)) ∧
      ∀ src, pton4Loop st (ch :: src) = .zero) := by
  have room := within.room
  have octets := within.octets
  cases its : digits.idxOf? ch with
  | some d =>
    have value : (UInt8.ofNat v).toNat = v :=
      UInt8.toNat_ofNat_of_lt' (Nat.lt_succ_of_le within.small)
    by_cases small : v * 10 + d ≤ 255
    · refine .inl ⟨d, _, its, within.next_digit its small, fun src => ?_⟩
      simp only [pton4Loop, its, within.here, value, if_neg (not_lt.mpr small)]
      by_cases first : tok = []
      · rw [if_pos first] at octets
        rw [if_neg (by rw [within.saw, first]; decide), octets, if_neg (by omega)]
      · rw [if_neg first] at octets
        have saw : st.sawDigit = true := by
          rw [within.saw]
          simpa using first
        rw [if_pos saw, ← octets, ← saw]
    · refine .inr (.inr ⟨.inl ⟨d, its, not_le.mp small⟩, fun src => ?_⟩)
      simp only [pton4Loop, its, within.here, value, if_pos (not_le.mp small)]
  | none =>
    have saw : st.sawDigit = true ↔ tok ≠ [] := by
      rw [within.saw]
      simp
    by_cases dot : ch = 46 ∧ st.sawDigit = true
    · rw [if_neg (saw.mp dot.2)] at octets
      by_cases last : front.length + 1 = 4
      · refine .inr (.inr ⟨.inr ⟨its, fun _ _ => last⟩, fun src => ?_⟩)
        simp only [pton4Loop, its, if_pos dot, octets, if_pos last]
      · obtain ⟨tmp, stored, next⟩ := within.dot (saw.mp dot.2) last
        refine .inr (.inl ⟨_, dot.1, saw.mp dot.2, last, next, fun src => ?_⟩)
        simp only [pton4Loop, its, if_pos dot, octets, if_neg last, stored]
    · refine .inr (.inr ⟨.inr ⟨its, fun is some_ => absurd ⟨is, saw.mpr some_⟩ dot⟩, fun src => ?_⟩)
      simp only [pton4Loop, its, if_neg dot]

theorem Within.octet (within : Within st front tok v) (some_ : tok ≠ []) : Octet tok v :=
  ⟨some_, within.reads, within.small⟩

theorem pton4Loop_iff (within : Within st front tok v) :
    pton4Loop st src = .one dst ↔ ∃ rest, Dotted (4 - front.length) (tok ++ src) rest ∧
      dst = front ++ rest := by
  induction src generalizing st front tok v with
  | nil =>
    have room := within.room
    rw [pton4Loop, within.octets, List.append_nil]
    constructor
    · intro accepts
      by_cases some_ : tok = []
      · rw [if_pos some_, if_pos (by omega)] at accepts
        cases accepts
      · rw [if_neg some_] at accepts
        by_cases last : front.length = 3
        · refine ⟨[UInt8.ofNat v], by rw [last]; exact .last (within.octet some_), ?_⟩
          rw [if_neg (by omega)] at accepts
          rw [← Pton.one.inj accepts, within.tmp, last]
          rfl
        · rw [if_pos (by omega)] at accepts
          cases accepts
    · rintro ⟨rest, dotted, rfl⟩
      obtain ⟨n, one, rfl, its⟩ := (dotted_digits within.all_digits).mp dotted
      obtain rfl := its.unique (within.octet its.nonempty)
      have last : front.length = 3 := by omega
      rw [if_neg its.nonempty, if_neg (by omega), within.tmp, last]
      rfl
  | cons ch src ih =>
    have room := within.room
    rcases within.step ch with ⟨d, st', its, next, goes⟩ | ⟨st', rfl, some_, more, next,
      goes⟩ | ⟨stops, goes⟩
    · rw [goes, ih next, ← List.append_cons]
    · rw [goes, ih next, List.nil_append, List.length_append, List.length_singleton]
      constructor
      · rintro ⟨rest, dotted, rfl⟩
        refine ⟨UInt8.ofNat v :: rest, ?_, by simp⟩
        rw [show 4 - front.length = 4 - (front.length + 1) + 1 by omega]
        exact .more (within.octet some_) dotted
      · rintro ⟨_, dotted, rfl⟩
        obtain ⟨n, k, rest, one, rfl, -, octet, dotted⟩ :=
          (dotted_stop within.all_digits digit_dot).mp dotted
        obtain rfl := octet.unique (within.octet some_)
        obtain rfl : k = 4 - (front.length + 1) := by omega
        exact ⟨rest, dotted, by simp⟩
    · rw [goes]
      refine iff_of_false nofun ?_
      rintro ⟨rest, dotted, -⟩
      rcases stops with ⟨d, its, large⟩ | ⟨other, only⟩
      · rw [List.append_cons] at dotted
        have reads : readFrom digit 10 0 (tok ++ [ch]) = some (v * 10 + d) := by
          rw [readFrom_append, within.reads, Option.bind_some, readFrom, its]
          rfl
        obtain ⟨more, n, octet⟩ := dotted.front (digits_of_readFrom reads)
        exact absurd ((octet.le_of_front (by decide) reads).trans octet.small) (by omega)
      · obtain ⟨n, k, dst', one, -, is, octet, dotted⟩ :=
          (dotted_stop within.all_digits other).mp dotted
        obtain rfl : k = 0 := by
          have last := only is octet.nonempty
          omega
        cases dotted

/-- No access is outside the array. -/
theorem pton4Loop_ne_fault (within : Within st front tok v) : pton4Loop st src ≠ .fault := by
  induction src generalizing st front tok v with
  | nil =>
    rw [pton4Loop]
    split <;> nofun
  | cons ch src ih =>
    rcases within.step ch with ⟨d, st', -, next, goes⟩ | ⟨st', -, -, -, next, goes⟩ | ⟨-, goes⟩
    · rw [goes]
      exact ih next
    · rw [goes]
      exact ih next
    · rw [goes]
      nofun

theorem within_start : Within ⟨List.replicate inAddrSz 0, 0, 0, false⟩ [] [] 0 :=
  ⟨Nat.zero_le _, rfl, rfl, rfl, rfl, rfl, Nat.zero_le _⟩

/-- What is accepted are four octets with dots between them. -/
theorem inet_pton4_eq_one (src dst : Bytes) : inet_pton4 src = .one dst ↔ Dotted 4 src dst := by
  rw [inet_pton4, pton4Loop_iff within_start]
  simp

theorem inet_pton4_ne_fault (src : Bytes) : inet_pton4 src ≠ .fault :=
  pton4Loop_ne_fault within_start

/-! ### What is written -/

theorem digit_digitByte : ∀ d, d < 10 → digit (digitByte d) = some d := by decide

theorem octet_decimal (b : UInt8) : Octet (decimal b.toNat) b.toNat :=
  number_write (by decide) digit_digitByte (Nat.le_of_lt_succ b.toNat_lt)

theorem dotted_dotted (a b c d : UInt8) : Dotted 4 (dotted [a, b, c, d]) [a, b, c, d] := by
  have four := Dotted.more (octet_decimal a) (.more (octet_decimal b) (.more (octet_decimal c)
    (.last (octet_decimal d))))
  simp only [UInt8.ofNat_toNat] at four
  simpa [Unp.dotted] using four

theorem length_dotted (src : Bytes) : (dotted src).length ≤ 15 := by
  have octet (b : UInt8) : (decimal b.toNat).length ≤ 3 :=
    length_decimal_le 3 _ (by decide) (lt_trans b.toNat_lt (by decide))
  have first := octet (src.getD 0 0)
  have second := octet (src.getD 1 0)
  have third := octet (src.getD 2 0)
  have fourth := octet (src.getD 3 0)
  simp only [dotted, List.length_append, List.length_cons]
  omega

/-! ### `inet_aton` -/

theorem digit_eq (b : UInt8) : digit b = if isDigit b then some (digitVal b) else none := by
  have all : ∀ n < 256, digit (UInt8.ofNat n) =
      if isDigit (UInt8.ofNat n) then some (digitVal (UInt8.ofNat n)) else none := by decide +kernel
  simpa only [UInt8.ofNat_toNat] using all b.toNat b.toNat_lt

/-- Any digits, or none. They are counted in 64 bits. -/
def Part (t : Bytes) (n : Nat) : Prop :=
  ∃ m, readFrom digit 10 0 t = some m ∧ n = m % 2 ^ 64 ∧ n ≤ 255

inductive Parts : Nat → Bytes → Bytes → Prop where
  | last {t : Bytes} {n : Nat} : Part t n → Parts 1 t [UInt8.ofNat n]
  | more {k : Nat} {t s dst : Bytes} {n : Nat} : Part t n → Parts k s dst →
    Parts (k + 1) (t ++ 46 :: s) (UInt8.ofNat n :: dst)

/-- The address so far and the rest of its bytes. -/
def address (addr : Nat) (dst : Bytes) : Nat := dst.foldl (fun addr b => addr * 256 + b.toNat) addr

theorem Octet.part (octet : Octet t n) : Part t n :=
  ⟨n, octet.reads, (Nat.mod_eq_of_lt (lt_of_le_of_lt octet.small (by decide))).symm, octet.small⟩

theorem Dotted.parts (dotted : Dotted k t dst) : Parts k t dst := by
  induction dotted with
  | last octet => exact .last octet.part
  | more octet _ ih => exact .more octet.part ih

theorem Parts.length (parts : Parts k t dst) : dst.length = k := by
  induction parts with
  | last _ => rfl
  | more _ _ ih => rw [List.length_cons, ih]

theorem parts_digits {m : Nat} (reads : readFrom digit 10 0 t = some m) :
    Parts k t dst ↔ k = 1 ∧ dst = [UInt8.ofNat (m % 2 ^ 64)] ∧ m % 2 ^ 64 ≤ 255 := by
  constructor
  · intro parts
    cases parts with
    | last part =>
      obtain ⟨m', reads', rfl, small⟩ := part
      obtain rfl := Option.some.inj (reads.symm.trans reads')
      exact ⟨rfl, rfl, small⟩
    | more part _ => exact absurd rfl (no_split (digits_of_readFrom reads) (by simp [digit_dot]))
  · rintro ⟨rfl, rfl, small⟩
    exact .last ⟨m, reads, rfl, small⟩

theorem parts_stop {c : UInt8} {m : Nat} (reads : readFrom digit 10 0 t = some m)
    (stop : digit c = none) :
    Parts k (t ++ c :: s) dst ↔
      ∃ k' dst', k = k' + 1 ∧ dst = UInt8.ofNat (m % 2 ^ 64) :: dst' ∧ c = 46 ∧ m % 2 ^ 64 ≤ 255 ∧
        Parts k' s dst' := by
  constructor
  · intro parts
    generalize same : t ++ c :: s = text at parts
    cases parts with
    | last part =>
      obtain ⟨m', reads', -⟩ := part
      exact absurd same.symm (no_split (digits_of_readFrom reads') (by simp [stop]))
    | more part rest =>
      obtain ⟨m', reads', rfl, small⟩ := part
      obtain ⟨rfl, rfl, rfl⟩ :=
        split_unique (digits_of_readFrom reads) (digits_of_readFrom reads') (by simp [stop])
          (by simp [digit_dot]) same
      obtain rfl := Option.some.inj (reads.symm.trans reads')
      exact ⟨_, _, rfl, rfl, rfl, small, rest⟩
  · rintro ⟨k', dst', rfl, rfl, rfl, small, rest⟩
    exact .more ⟨m, reads, rfl, small⟩ rest

theorem shift_or (addr acc : Nat) (bounded : addr < 2 ^ 24) (small : acc ≤ 255) :
    (addr <<< 8 ||| acc) % 2 ^ 64 = addr * 256 + acc := by
  rw [Nat.shiftLeft_eq, Nat.mul_comm, ← Nat.two_pow_add_eq_or_of_lt (by omega),
    Nat.mod_eq_of_lt (by omega)]

theorem address_room {dots addr : Nat} (few : dots ≤ 3) (bounded : addr < 256 ^ dots) :
    addr < 2 ^ 24 :=
  lt_of_lt_of_le bounded (Nat.pow_le_pow_right (by decide) few)

/-- The loop goes through the parts. -/
theorem atonLoop_iff {tok src : Bytes} {dots addr m dots' addr' : Nat}
    (reads : readFrom digit 10 0 tok = some m) (few : dots ≤ 3) (bounded : addr < 256 ^ dots) :
    atonLoop dots (m % 2 ^ 64) addr src = some (dots', addr') ↔
      ∃ k dst, dots + k = dots' + 1 ∧ dots' ≤ 3 ∧ Parts k (tok ++ src) dst ∧
      addr' = address addr dst := by
  induction src generalizing tok dots addr m with
  | nil =>
    have room := address_room few bounded
    simp only [atonLoop, List.append_nil, parts_digits reads]
    constructor
    · intro accepts
      by_cases large : 255 < m % 2 ^ 64
      · rw [if_pos large] at accepts
        cases accepts
      · rw [if_neg large, shift_or addr _ room (not_lt.mp large)] at accepts
        obtain ⟨rfl, rfl⟩ := Prod.mk.inj (Option.some.inj accepts)
        refine ⟨1, _, rfl, few, ⟨rfl, rfl, not_lt.mp large⟩, ?_⟩
        rw [address, List.foldl_cons, List.foldl_nil,
          UInt8.toNat_ofNat_of_lt' (Nat.lt_succ_of_le (not_lt.mp large))]
    · rintro ⟨k, dst, count, few', ⟨rfl, rfl, small⟩, rfl⟩
      rw [if_neg (not_lt.mpr small), shift_or addr _ room small, address, List.foldl_cons,
        List.foldl_nil, UInt8.toNat_ofNat_of_lt' (Nat.lt_succ_of_le small)]
      obtain rfl : dots = dots' := by omega
      rfl
  | cons cc src ih =>
    rw [atonLoop]
    have is := digit_eq cc
    by_cases its : isDigit cc = true
    · rw [if_pos its] at is
      have reads' : readFrom digit 10 0 (tok ++ [cc]) = some (m * 10 + digitVal cc) := by
        rw [readFrom_append, reads, Option.bind_some, readFrom, is]
        rfl
      rw [if_pos its, List.append_cons, ← ih reads' few bounded, Nat.add_mod, Nat.mod_mul_mod,
        ← Nat.add_mod]
    · rw [if_neg its] at is
      rw [if_neg its]
      simp only [parts_stop reads is]
      by_cases dot : cc = 46
      · rw [if_pos dot]
        by_cases last : 3 < dots + 1
        · rw [if_pos last]
          refine iff_of_false (by simp) ?_
          rintro ⟨k, dst, count, few', ⟨k', dst', rfl, -, -, -, rest⟩, -⟩
          obtain rfl : k' = 0 := by omega
          cases rest
        · by_cases large : 255 < m % 2 ^ 64
          · rw [if_neg last, if_pos large]
            refine iff_of_false (by simp) ?_
            rintro ⟨k, dst, -, -, ⟨k', dst', -, -, -, small, -⟩, -⟩
            exact absurd large (not_lt.mpr small)
          · have small := not_lt.mp large
            have value : (UInt8.ofNat (m % 2 ^ 64)).toNat = m % 2 ^ 64 :=
              UInt8.toNat_ofNat_of_lt' (Nat.lt_succ_of_le small)
            have bounded' : addr * 256 + m % 2 ^ 64 < 256 ^ (dots + 1) := by
              rw [Nat.pow_succ]
              omega
            rw [if_neg last, if_neg large, shift_or addr _ (address_room few bounded) small,
              show (0 : Nat) = 0 % 2 ^ 64 from rfl,
              ih (show readFrom digit 10 0 [] = some 0 from rfl) (by omega) bounded']
            constructor
            · rintro ⟨k, dst, count, few', rest, rfl⟩
              exact ⟨k + 1, _, by omega, few', ⟨k, dst, rfl, rfl, dot, small, rest⟩, by
                rw [address, address, List.foldl_cons, value]⟩
            · rintro ⟨_, _, count, few', ⟨k, dst, rfl, rfl, -, -, rest⟩, rfl⟩
              exact ⟨k, dst, by omega, few', rest, by rw [address, address, List.foldl_cons, value]⟩
      · rw [if_neg dot]
        refine iff_of_false (by simp) ?_
        rintro ⟨k, dst, -, -, ⟨k', dst', -, -, its, -⟩, -⟩
        exact dot its

theorem address_append (addr : Nat) (s t : Bytes) :
    address addr (s ++ t) = address (address addr s) t :=
  List.foldl_append

theorem address_zeros (addr m : Nat) : address addr (List.replicate m 0) = addr * 256 ^ m := by
  induction m generalizing addr with
  | zero => simp [address]
  | succ m ih =>
    have rest := ih (addr * 256)
    rw [List.replicate_succ, Nat.pow_succ', ← Nat.mul_assoc, ← rest]
    simp only [address, List.foldl_cons, UInt8.toNat_zero, Nat.add_zero]

theorem address_lt (addr : Nat) (s : Bytes) : address addr s < (addr + 1) * 256 ^ s.length := by
  induction s generalizing addr with
  | nil => simp [address]
  | cons b s ih =>
    have small := b.toNat_lt
    refine lt_of_lt_of_le (ih (addr * 256 + b.toNat)) ?_
    rw [List.length_cons, Nat.pow_succ', ← Nat.mul_assoc]
    exact Nat.mul_le_mul_right _ (by omega)

theorem htonl_address (a b c d : UInt8) : htonl (address 0 [a, b, c, d]) = [a, b, c, d] := by
  have first := a.toNat_lt
  have second := b.toNat_lt
  have third := c.toNat_lt
  have fourth := d.toNat_lt
  simp only [htonl, address, List.foldl_cons, List.foldl_nil, Nat.shiftRight_eq_div_pow,
    List.cons.injEq, and_true, ← UInt8.toNat_inj, UInt8.toNat_ofNat']
  omega

/-- What is accepted are up to four numbers with dots between them; those that are missing are 0. -/
theorem inet_aton_eq_some (src dst : Bytes) :
    inet_aton src = some dst ↔ ∃ k front, k ≤ 4 ∧ Parts k src front ∧
      dst = front ++ List.replicate (4 - k) 0 := by
  have stored {k dots : Nat} {front : Bytes} (parts : Parts k src front) (count : k = dots + 1)
    (few : dots ≤ 3) :
      htonl (if dots < 3 then address 0 front <<< (8 * (3 - dots)) % 2 ^ 64 else address 0 front) =
        front ++ List.replicate (4 - k) 0 := by
    have length := parts.length
    have all :
      (if dots < 3 then address 0 front <<< (8 * (3 - dots)) % 2 ^ 64 else address 0 front) =
        address 0 (front ++ List.replicate (4 - k) 0) := by
      rw [address_append, address_zeros, count, show 4 - (dots + 1) = 3 - dots by omega]
      by_cases missing : dots < 3
      · have small := address_lt 0 (front ++ List.replicate (3 - dots) 0)
        rw [address_append, address_zeros, List.length_append, List.length_replicate, length, count,
          show dots + 1 + (3 - dots) = 4 by omega] at small
        rw [if_pos missing, Nat.shiftLeft_eq, Nat.pow_mul]
        exact Nat.mod_eq_of_lt (lt_trans small (by decide))
      · rw [if_neg missing, show 3 - dots = 0 by omega, Nat.pow_zero, Nat.mul_one]
    have four : (front ++ List.replicate (4 - k) 0).length = 4 := by
      rw [List.length_append, List.length_replicate, length]
      omega
    rw [all]
    obtain ⟨a, b, c, d, is⟩ := List.length_eq_four.mp four
    rw [is, htonl_address]
  have loop {dots addr : Nat} : atonLoop 0 (0 % 2 ^ 64) 0 src = some (dots, addr) ↔ _ :=
    atonLoop_iff (show readFrom digit 10 0 [] = some 0 from rfl) (Nat.zero_le 3)
      (show 0 < 256 ^ 0 by decide)
  rw [inet_aton, Option.map_eq_some_iff]
  constructor
  · rintro ⟨⟨dots, addr⟩, accepts, rfl⟩
    obtain ⟨k, front, count, few, parts, rfl⟩ := loop.mp accepts
    rw [Nat.zero_add] at count
    exact ⟨k, front, by omega, parts, stored parts count few⟩
  · rintro ⟨k, front, few, parts, rfl⟩
    obtain ⟨dots, count⟩ : ∃ dots, k = dots + 1 := by
      cases parts with
      | last _ => exact ⟨0, rfl⟩
      | more _ _ => exact ⟨_, rfl⟩
    refine ⟨(dots, address 0 front), loop.mpr ⟨k, front, by omega, by omega, parts, rfl⟩, ?_⟩
    exact stored parts count (by omega)

end Unp
