import MyStudy.Unp.Dotted

/-!
# Groups of hexadecimal digits

`inet_pton6` accepts groups with `:` between them, at most one `::`, and four octets for the last
two groups. What stands behind `::` is moved to the end; in a full address it is lost.
-/
namespace Unp

open Numerals

def Group (t : Bytes) (n : Nat) : Prop := Number xdigit 16 0xffff t n

/-- Groups, and how the text ends. It may end behind a `:`. -/
inductive Tail : Bytes → Bytes → Prop where
  | nothing : Tail [] []
  | group {t : Bytes} {n : Nat} : Group t n → Tail t (word n)
  | dotted {t b : Bytes} : Dotted 4 t b → Tail t b
  | cons {t s b : Bytes} {n : Nat} : Group t n → Tail s b → Tail (t ++ 58 :: s) (word n ++ b)

/-- Groups up to `::` and those behind it, of a text whose first `:` is behind a group or part of
`::`. -/
inductive Whole : Bytes → Bytes → Option Bytes → Prop where
  | full {s b : Bytes} : Tail s b → Whole s b none
  | gap {s b : Bytes} : Tail s b → Whole (58 :: s) [] (some b)
  | cons {t s l : Bytes} {n : Nat} {r : Option Bytes} : Group t n → Whole s l r →
      Whole (t ++ 58 :: s) (word n ++ l) r

inductive Address : Bytes → Bytes → Option Bytes → Prop where
  | plain {s l : Bytes} {r : Option Bytes} : s.head? ≠ some 58 → Whole s l r → Address s l r
  | leading {s b : Bytes} : Tail s b → Address (58 :: 58 :: s) [] (some b)

/-- The bytes of an address. -/
def assemble (l : Bytes) : Option Bytes → Option Bytes
  | none => if l.length = 16 then some l else none
  | some r =>
    if 16 < l.length + r.length then none
    else if l.length + r.length = 16 then some (l ++ List.replicate r.length 0)
    else some (l ++ List.replicate (16 - (l.length + r.length)) 0 ++ r)

/-! ### Digits -/

theorem xdigit_colon : xdigit 58 = none := rfl

theorem xdigit_dot : xdigit 46 = none := rfl

theorem xdigit_lt {b : UInt8} {d : Nat} (its : xdigit b = some d) : d < 16 := by
  rw [xdigit] at its
  cases lower : xdigitsL.idxOf? b with
  | some e =>
    rw [lower] at its
    exact Option.some.inj its ▸ (List.findIdx?_eq_some_iff_findIdx_eq.mp lower).1
  | none =>
    rw [lower] at its
    exact (List.findIdx?_eq_some_iff_findIdx_eq.mp its).1

/-- A decimal digit is a hexadecimal one. -/
theorem xdigit_of_digit {b : UInt8} {d : Nat} (its : digit b = some d) : xdigit b = some d := by
  have all : ∀ n < 256, ∀ d < 10, digit (UInt8.ofNat n) = some d →
      xdigit (UInt8.ofNat n) = some d := by
    decide +kernel
  have here := all b.toNat b.toNat_lt d (digit_eq_some its)
  rw [UInt8.ofNat_toNat] at here
  exact here its

theorem isSome_xdigit {t : Bytes} (all : ∀ b ∈ t, (digit b).isSome) :
    ∀ b ∈ t, (xdigit b).isSome := by
  intro b member
  obtain ⟨d, its⟩ := Option.isSome_iff_exists.mp (all b member)
  rw [xdigit_of_digit its]
  rfl

/-- An octet is no more than a group may be. -/
theorem xreads_of_octet {t : Bytes} {v : Nat} (reads : readFrom digit 10 0 t = some v)
    (small : v ≤ 255) :
    ∃ h, readFrom xdigit 16 0 t = some h ∧ h ≤ 0xffff ∧ (v ≤ 25 → h ≤ 41) ∧ (v ≤ 2 → h ≤ v) := by
  induction t using List.reverseRecOn generalizing v with
  | nil =>
    obtain rfl := Option.some.inj reads
    exact ⟨0, rfl, by decide, fun _ => by decide, fun _ => le_rfl⟩
  | append_singleton t b ih =>
    rw [readFrom_append] at reads
    obtain ⟨w, before, last⟩ := Option.bind_eq_some_iff.mp reads
    obtain ⟨d, its, is⟩ := Option.bind_eq_some_iff.mp last
    have value : w * 10 + d = v := Option.some.inj is
    have ten := digit_eq_some its
    obtain ⟨h, reads', -, two, one⟩ := ih before (by omega)
    refine ⟨h * 16 + d, ?_, ?_, fun _ => ?_, fun _ => ?_⟩
    · rw [readFrom_append, reads', Option.bind_some, readFrom, xdigit_of_digit its]
      rfl
    · have := two (by omega)
      omega
    · have := one (by omega)
      omega
    · have := one (by omega)
      omega

theorem or_digit (v d : Nat) (small : d < 16) : v <<< 4 ||| d = v * 16 + d := by
  rw [Nat.shiftLeft_eq, Nat.mul_comm, ← Nat.two_pow_add_eq_or_of_lt (by omega)]

/-! ### What is left of a text -/

/-- From where a token begins, with the bytes so far and where `::` was. -/
inductive Rest : Bytes → Option Nat → Bytes → Bytes → Option Nat → Prop where
  | nothing {d : Bytes} {c : Option Nat} : Rest d c [] d c
  | group {d t : Bytes} {c : Option Nat} {n : Nat} :
    Group t n → (d ++ word n).length ≤ 16 → Rest d c t (d ++ word n) c
  | dotted {d t b : Bytes} {c : Option Nat} : Dotted 4 t b → (d ++ b).length ≤ 16 →
      Rest d c t (d ++ b) c
  | gap {d s d' : Bytes} {c' : Option Nat} : Rest d (some d.length) s d' c' →
      Rest d none (58 :: s) d' c'
  | cons {d t s d' : Bytes} {c c' : Option Nat} {n : Nat} : Group t n → (d ++ word n).length ≤ 16 →
    Rest (d ++ word n) c s d' c' → Rest d c (t ++ 58 :: s) d' c'

variable {d d' t s tok src b : Bytes} {c c' : Option Nat} {n v : Nat} {ch : UInt8}

/-- Where four octets have no digit, they have a dot. -/
theorem Dotted.stop (dotted : Dotted 4 (tok ++ ch :: src) b) (all : ∀ b ∈ tok, (xdigit b).isSome)
    (stop : xdigit ch = none) : ch = 46 := by
  generalize same : tok ++ ch :: src = text at dotted
  cases dotted with
  | more octet rest =>
    obtain ⟨-, is, -⟩ :=
      split_unique all (isSome_xdigit octet.digits) (by simp [stop]) (by simp [xdigit_dot]) same
    exact is

theorem rest_stop (all : ∀ b ∈ tok, (xdigit b).isSome) (stop : xdigit ch = none) :
    Rest d c (tok ++ ch :: src) d' c' ↔
      (∃ b, ch = 46 ∧ Dotted 4 (tok ++ ch :: src) b ∧ (d ++ b).length ≤ 16 ∧ d' = d ++ b ∧ c' = c) ∨
      (ch = 58 ∧ tok = [] ∧ c = none ∧ Rest d (some d.length) src d' c') ∨
      ∃ n, ch = 58 ∧ Group tok n ∧ (d ++ word n).length ≤ 16 ∧ Rest (d ++ word n) c src d' c' := by
  constructor
  · intro rest
    generalize same : tok ++ ch :: src = text at rest
    cases rest with
    | nothing => simp at same
    | group group _ => exact absurd same.symm (no_split group.digits (by simp [stop]))
    | dotted dotted room => exact .inl ⟨_, (same ▸ dotted).stop all stop, dotted, room, rfl, rfl⟩
    | gap rest =>
      have none_ : ∀ b ∈ ([] : Bytes), (xdigit b).isSome := nofun
      obtain ⟨rfl, rfl, rfl⟩ :=
        split_unique all none_ (by simp [stop]) (by simp [xdigit_colon]) same
      exact .inr (.inl ⟨rfl, rfl, rfl, rest⟩)
    | cons group room rest =>
      obtain ⟨rfl, rfl, rfl⟩ :=
        split_unique all group.digits (by simp [stop]) (by simp [xdigit_colon]) same
      exact .inr (.inr ⟨_, rfl, group, room, rest⟩)
  · rintro (⟨b, -, dotted, room, rfl, rfl⟩ | ⟨rfl, rfl, rfl, rest⟩ | ⟨n, rfl, group, room, rest⟩)
    · exact .dotted dotted room
    · exact .gap rest
    · exact .cons group room rest

theorem rest_gap : Rest d c (58 :: src) d' c' ↔ c = none ∧ Rest d (some d.length) src d' c' := by
  have all : Rest d c ([] ++ 58 :: src) d' c' ↔ _ := rest_stop nofun xdigit_colon
  rw [List.nil_append] at all
  rw [all]
  constructor
  · rintro (⟨b, is, -⟩ | ⟨-, -, first, rest⟩ | ⟨n, -, group, -⟩)
    · cases is
    · exact ⟨first, rest⟩
    · exact absurd rfl group.nonempty
  · rintro ⟨first, rest⟩
    exact .inr (.inl ⟨rfl, rfl, first, rest⟩)

theorem rest_group (all : ∀ b ∈ tok, (xdigit b).isSome) (some_ : tok ≠ []) :
    Rest d c (tok ++ 58 :: src) d' c' ↔
      ∃ n, Group tok n ∧ (d ++ word n).length ≤ 16 ∧ Rest (d ++ word n) c src d' c' := by
  rw [rest_stop all xdigit_colon]
  constructor
  · rintro (⟨b, is, -⟩ | ⟨-, none_, -⟩ | ⟨n, -, more⟩)
    · cases is
    · exact absurd none_ some_
    · exact ⟨n, more⟩
  · rintro ⟨n, more⟩
    exact .inr (.inr ⟨n, rfl, more⟩)

theorem rest_dot (all : ∀ b ∈ tok, (xdigit b).isSome) : Rest d c (tok ++ 46 :: src) d' c' ↔
    ∃ b, Dotted 4 (tok ++ 46 :: src) b ∧ (d ++ b).length ≤ 16 ∧ d' = d ++ b ∧ c' = c := by
  rw [rest_stop all xdigit_dot]
  constructor
  · rintro (⟨b, -, more⟩ | ⟨is, -⟩ | ⟨n, is, -⟩)
    · exact ⟨b, more⟩
    · cases is
    · cases is
  · rintro ⟨b, more⟩
    exact .inl ⟨b, rfl, more⟩

theorem rest_other (all : ∀ b ∈ tok, (xdigit b).isSome) (stop : xdigit ch = none)
    (colon : ch ≠ 58) (dot : ch ≠ 46) :
    ¬ Rest d c (tok ++ ch :: src) d' c' := by
  rw [rest_stop all stop]
  rintro (⟨b, is, -⟩ | ⟨is, -⟩ | ⟨n, is, -⟩)
  · exact dot is
  · exact colon is
  · exact colon is

theorem rest_end (all : ∀ b ∈ tok, (xdigit b).isSome) :
    Rest d c tok d' c' ↔ (tok = [] ∧ d' = d ∧ c' = c) ∨
      ∃ n, Group tok n ∧ (d ++ word n).length ≤ 16 ∧ d' = d ++ word n ∧ c' = c := by
  constructor
  · intro rest
    cases rest with
    | nothing => exact .inl ⟨rfl, rfl, rfl⟩
    | group group room => exact .inr ⟨_, group, room, rfl, rfl⟩
    | dotted dotted room =>
      cases dotted with
      | more _ _ => exact absurd rfl (no_split all (by simp [xdigit_dot]))
    | gap _ => simpa [xdigit_colon] using all 58 (by simp)
    | cons _ _ _ => exact absurd rfl (no_split all (by simp [xdigit_colon]))
  · rintro (⟨rfl, rfl, rfl⟩ | ⟨n, group, room, rfl, rfl⟩)
    · exact .nothing
    · exact .group group room

/-- Digits at the front are those of a number, or the first of them. -/
theorem Rest.front (rest : Rest d c (tok ++ src) d' c') (all : ∀ b ∈ tok, (xdigit b).isSome)
    (some_ : tok ≠ []) :
    ∃ more h, readFrom xdigit 16 0 (tok ++ more) = some h ∧ h ≤ 0xffff := by
  have before {t s : Bytes} {h : Nat} {ch : UInt8} (same : tok ++ src = t ++ ch :: s)
    (stop : xdigit ch = none)
      (reads : readFrom xdigit 16 0 t = some h) (small : h ≤ 0xffff) :
      ∃ more h, readFrom xdigit 16 0 (tok ++ more) = some h ∧ h ≤ 0xffff := by
    rcases List.append_eq_append_iff.mp same with ⟨more, rfl, -⟩ | ⟨more, rfl, its⟩
    · exact ⟨more, h, reads, small⟩
    · cases more with
      | nil => exact ⟨[], h, by simpa using reads, small⟩
      | cons c more =>
        obtain ⟨rfl, -⟩ := List.cons.inj its
        simpa [stop] using all ch (by simp)
  generalize same : tok ++ src = text at rest
  cases rest with
  | nothing => exact absurd (List.append_eq_nil_iff.mp same).1 some_
  | group group _ => exact ⟨src, _, same ▸ group.reads, group.small⟩
  | dotted dotted _ =>
    cases dotted with
    | more octet _ =>
      obtain ⟨h, reads, small, -, -⟩ := xreads_of_octet octet.reads octet.small
      exact before same xdigit_dot reads small
  | gap _ =>
    cases tok with
    | nil => exact absurd rfl some_
    | cons b tok =>
      obtain ⟨rfl, -⟩ := List.cons.inj same
      simpa [xdigit_colon] using all 58 (by simp)
  | cons group _ _ => exact before same xdigit_colon group.reads group.small

/-! ### The loop -/

def pad (d : Bytes) : Bytes := d ++ List.replicate (16 - d.length) 0

theorem store_pad (room : (d ++ b).length ≤ 16) :
    store (pad d) d.length b = some (pad (d ++ b)) := by
  rw [List.length_append] at room
  have zeros : List.replicate (16 - d.length) (0 : UInt8) =
      List.replicate b.length 0 ++ List.replicate (16 - (d ++ b).length) 0 := by
    rw [List.replicate_append_replicate, List.length_append]
    congr 1
    omega
  rw [pad, zeros, store_middle (by simp), pad, List.append_assoc]

/-- The loop inside a token: the bytes of those before it are stored, and its digits so far are
`tok`. -/
structure Inside (st : State6) (d : Bytes) (c : Option Nat) (tok src : Bytes) : Prop where
  room : d.length ≤ 16
  before : ∀ g, c = some g → g ≤ d.length
  tmp : st.tmp = pad d
  tp : st.tp = d.length
  colonp : st.colonp = c
  curtok : st.curtok = tok ++ src
  saw : st.sawXdigit = !tok.isEmpty
  reads : readFrom xdigit 16 0 tok = some st.val
  small : st.val ≤ 0xffff

variable {st : State6}

theorem Inside.digits (inside : Inside st d c tok src) : ∀ b ∈ tok, (xdigit b).isSome :=
  digits_of_readFrom inside.reads

theorem Inside.saw_iff (inside : Inside st d c tok src) : st.sawXdigit = true ↔ tok ≠ [] := by
  rw [inside.saw]
  simp

theorem Inside.group_iff (inside : Inside st d c tok src) :
    Group tok n ↔ tok ≠ [] ∧ n = st.val := by
  constructor
  · intro group
    exact ⟨group.nonempty, Option.some.inj (group.reads.symm.trans inside.reads)⟩
  · rintro ⟨some_, rfl⟩
    exact ⟨some_, inside.reads, inside.small⟩

theorem length_word (n : Nat) : (word n).length = 2 := rfl

/-- A token ends. -/
theorem Inside.store_word (inside : Inside st d c tok src) (room : (d ++ word st.val).length ≤ 16) :
    store st.tmp st.tp (word st.val) = some (pad (d ++ word st.val)) := by
  rw [inside.tmp, inside.tp, store_pad room]

theorem Inside.full_iff (inside : Inside st d c tok src) :
    in6AddrSz < st.tp + int16Sz ↔ ¬ (d ++ word st.val).length ≤ 16 := by
  rw [inside.tp, List.length_append, length_word, in6AddrSz, int16Sz]
  omega

/-- What the loop does with a byte, and what that says of the text. -/
inductive Step (st : State6) (d : Bytes) (c : Option Nat) (tok : Bytes) (ch : UInt8)
    (src : Bytes) : Prop where
  | goes {st' : State6} {d₁ : Bytes} {c₁ : Option Nat} {tok₁ : Bytes} : Inside st' d₁ c₁ tok₁ src →
    pton6Loop st (ch :: src) = pton6Loop st' src →
    (∀ d' c', Rest d c (tok ++ ch :: src) d' c' ↔ Rest d₁ c₁ (tok₁ ++ src) d' c') →
    Step st d c tok ch src
  | ends {b : Bytes} : (d ++ b).length ≤ 16 →
    pton6Loop st (ch :: src) = pton6Shift (pad (d ++ b)) (d ++ b).length c →
    (∀ d' c', Rest d c (tok ++ ch :: src) d' c' ↔ d' = d ++ b ∧ c' = c) → Step st d c tok ch src
  | stops : pton6Loop st (ch :: src) = .zero → (∀ d' c', ¬ Rest d c (tok ++ ch :: src) d' c') →
      Step st d c tok ch src

theorem Inside.step_digit (inside : Inside st d c tok (ch :: src)) (its : xdigit ch = some v) :
    Step st d c tok ch src := by
  have val := or_digit st.val v (xdigit_lt its)
  have reads : readFrom xdigit 16 0 (tok ++ [ch]) = some (st.val * 16 + v) := by
    rw [readFrom_append, inside.reads, Option.bind_some, readFrom, its]
    rfl
  by_cases small : st.val * 16 + v ≤ 0xffff
  · have next : Inside { st with sawXdigit := true, val := st.val * 16 + v } d c
      (tok ++ [ch]) src :=
      ⟨inside.room, inside.before, inside.tmp, inside.tp, inside.colonp,
        by rw [← List.append_cons]; exact inside.curtok,
        by simp, reads, small⟩
    refine .goes next ?_ fun d' c' => ?_
    · simp only [pton6Loop, its, val, if_neg (not_lt.mpr small)]
    · rw [← List.append_cons]
  · refine .stops ?_ fun d' c' rest => ?_
    · simp only [pton6Loop, its, val, if_pos (not_le.mp small)]
    · rw [List.append_cons] at rest
      obtain ⟨more, h, all, bound⟩ := rest.front (digits_of_readFrom reads) (by simp)
      rw [readFrom_append, reads, Option.bind_some] at all
      exact small ((le_of_readFrom (by decide) all).trans bound)

theorem Inside.step_colon (inside : Inside st d c tok (58 :: src)) : Step st d c tok 58 src := by
  by_cases first : tok = []
  · subst first
    have saw : ¬ st.sawXdigit = true := fun saw => inside.saw_iff.mp saw rfl
    cases c with
    | none =>
      have next : Inside { st with curtok := src, colonp := some st.tp } d (some d.length) [] src :=
        ⟨inside.room, fun g its => (Option.some.inj its).ge, inside.tmp, inside.tp,
          congrArg some inside.tp, rfl,
          inside.saw, inside.reads, inside.small⟩
      refine .goes next ?_ fun d' c' => ?_
      · simp [pton6Loop, xdigit_colon, saw, inside.colonp]
      · rw [List.nil_append, List.nil_append, rest_gap, and_iff_right rfl]
    | some g =>
      refine .stops ?_ fun d' c' rest => ?_
      · simp [pton6Loop, xdigit_colon, saw, inside.colonp]
      · cases (rest_gap.mp rest).1
  · have saw := inside.saw_iff.mpr first
    by_cases room : (d ++ word st.val).length ≤ 16
    · have next :
          Inside ⟨pad (d ++ word st.val), st.tp + int16Sz, st.colonp, src, false, 0⟩
          (d ++ word st.val) c [] src :=
        ⟨room, fun g its => (inside.before g its).trans (by simp), rfl,
          by rw [inside.tp, List.length_append]; rfl,
          inside.colonp, rfl, rfl, rfl, Nat.zero_le _⟩
      refine .goes next ?_ fun d' c' => ?_
      · have fits : ¬ in6AddrSz < st.tp + int16Sz := fun full => inside.full_iff.mp full room
        simp only [pton6Loop, xdigit_colon, if_true, if_pos saw, if_neg fits,
          inside.store_word room]
      · rw [rest_group inside.digits first, List.nil_append]
        constructor
        · rintro ⟨n, group, -, rest⟩
          obtain ⟨-, rfl⟩ := inside.group_iff.mp group
          exact rest
        · exact fun rest => ⟨st.val, inside.group_iff.mpr ⟨first, rfl⟩, room, rest⟩
    · refine .stops ?_ fun d' c' rest => ?_
      · have full : in6AddrSz < st.tp + int16Sz := inside.full_iff.mpr room
        simp only [pton6Loop, xdigit_colon, if_true, if_pos saw, if_pos full]
      · obtain ⟨n, group, fits, -⟩ := (rest_group inside.digits first).mp rest
        obtain ⟨-, rfl⟩ := inside.group_iff.mp group
        exact room fits

theorem Inside.step_dot (inside : Inside st d c tok (46 :: src)) : Step st d c tok 46 src := by
  by_cases room : st.tp + inAddrSz ≤ in6AddrSz
  · have fits (b : Bytes) (four : b.length = 4) : (d ++ b).length ≤ 16 := by
      rw [List.length_append, four, ← inside.tp]
      exact room
    cases converts : inet_pton4 (tok ++ 46 :: src) with
    | fault => exact absurd converts (inet_pton4_ne_fault _)
    | zero =>
      refine .stops ?_ fun d' c' rest => ?_
      · simp [pton6Loop, xdigit_dot, room, inside.curtok, converts]
      · obtain ⟨b, dotted, -⟩ := (rest_dot inside.digits).mp rest
        rw [(inet_pton4_eq_one _ _).mpr dotted] at converts
        cases converts
    | one b =>
      have dotted := (inet_pton4_eq_one _ _).mp converts
      have all := fits b dotted.length
      refine .ends all ?_ fun d' c' => ?_
      · have stored : store st.tmp st.tp b = some (pad (d ++ b)) := by
          rw [inside.tmp, inside.tp, store_pad all]
        have tp : st.tp + inAddrSz = (d ++ b).length := by
          rw [inside.tp, List.length_append, dotted.length, inAddrSz]
        have dot : (46 : UInt8) ≠ 58 := by decide
        simp only [pton6Loop, xdigit_dot, if_neg dot, inside.curtok, converts, stored, tp,
          inside.colonp, pton6End, Bool.false_eq_true, if_false]
        rw [if_pos ⟨trivial, all⟩]
      · rw [rest_dot inside.digits]
        constructor
        · rintro ⟨b', dotted', -, rfl, rfl⟩
          have same := converts.symm.trans ((inet_pton4_eq_one _ _).mpr dotted')
          rw [Pton.one.inj same]
          exact ⟨rfl, rfl⟩
        · rintro ⟨rfl, rfl⟩
          exact ⟨b, dotted, all, rfl, rfl⟩
  · refine .stops ?_ fun d' c' rest => ?_
    · simp [pton6Loop, xdigit_dot, room]
    · obtain ⟨b, dotted, fits, -⟩ := (rest_dot inside.digits).mp rest
      rw [List.length_append, dotted.length, ← inside.tp] at fits
      exact room fits

theorem Inside.step (inside : Inside st d c tok (ch :: src)) : Step st d c tok ch src := by
  cases its : xdigit ch with
  | some v => exact inside.step_digit its
  | none =>
    by_cases colon : ch = 58
    · subst colon
      exact inside.step_colon
    · by_cases dot : ch = 46
      · subst dot
        exact inside.step_dot
      · refine .stops ?_ fun d' c' => rest_other inside.digits its colon dot
        simp [pton6Loop, its, colon, dot]

/-! ### What stood behind `::` -/

section Shift

variable {l r moved : Bytes} {g n : Nat}

theorem store_one {a c : Bytes} (x y : UInt8) :
    store (a ++ ([x] ++ c)) a.length [y] = some (a ++ ([y] ++ c)) :=
  store_middle rfl

/-- It is moved over the zeros behind it. -/
theorem shiftLoop_gap (total : l.length + n + (g + 1) = 16) (count : r.length + moved.length = n) :
    shiftLoop l.length n r.length (l ++ (r ++ (List.replicate (g + 1) 0 ++ moved))) =
      some (l ++ (List.replicate (g + 1) 0 ++ (r ++ moved))) := by
  induction r using List.reverseRecOn generalizing moved with
  | nil => rfl
  | append_singleton r x ih =>
    rw [List.length_append, List.length_singleton] at count ⊢
    have front : l ++ (r ++ [x] ++ (List.replicate (g + 1) 0 ++ moved)) =
        l ++ (r ++ ([x] ++ (List.replicate (g + 1) 0 ++ moved))) := by rw [List.append_assoc r]
    have read : (l ++ (r ++ [x] ++ (List.replicate (g + 1) 0 ++ moved)))[l.length + r.length]? =
        some x := by
      rw [front, ← List.append_assoc l, ← List.length_append]
      simp
    have first : store (l ++ (r ++ [x] ++ (List.replicate (g + 1) 0 ++ moved)))
      (in6AddrSz - (n - r.length)) [x] =
        some (l ++ (r ++ ([x] ++ (List.replicate g 0 ++ (x :: moved))))) := by
      have place : in6AddrSz - (n - r.length) =
          (l ++ (r ++ ([x] ++ List.replicate g 0))).length := by
        simp only [in6AddrSz, List.length_append, List.length_replicate, List.length_singleton]
        omega
      have split : l ++ (r ++ [x] ++ (List.replicate (g + 1) 0 ++ moved)) =
          (l ++ (r ++ ([x] ++ List.replicate g 0))) ++ ([0] ++ moved) := by
        simp [List.replicate_succ']
      rw [place, split, store_one]
      simp
    have second : store (l ++ (r ++ ([x] ++ (List.replicate g 0 ++ (x :: moved)))))
      (l.length + r.length) [0] =
        some (l ++ (r ++ (List.replicate (g + 1) 0 ++ (x :: moved)))) := by
      rw [← List.append_assoc l, ← List.length_append, store_one]
      simp [List.replicate_succ]
    rw [shiftLoop, read, Option.bind_some, first, Option.bind_some, second, Option.bind_some,
      ih (by rw [List.length_cons]; omega)]
    simp

/-- In a full address there is nowhere to move it to, and zeros take its place. -/
theorem shiftLoop_full (total : l.length + n = 16) (count : r.length + g = n) :
    shiftLoop l.length n r.length (l ++ (r ++ List.replicate g 0)) =
      some (l ++ List.replicate n 0) := by
  induction r using List.reverseRecOn generalizing g with
  | nil =>
    obtain rfl : g = n := by simpa using count
    rfl
  | append_singleton r x ih =>
    rw [List.length_append, List.length_singleton] at count ⊢
    have front : l ++ (r ++ [x] ++ List.replicate g 0) =
        (l ++ r) ++ ([x] ++ List.replicate g 0) := by simp
    have read : (l ++ (r ++ [x] ++ List.replicate g 0))[l.length + r.length]? = some x := by
      rw [front, ← List.length_append]
      simp
    have place : in6AddrSz - (n - r.length) = (l ++ r).length := by
      rw [in6AddrSz, List.length_append]
      omega
    have next : (l ++ r) ++ ([0] ++ List.replicate g 0) = l ++ (r ++ List.replicate (g + 1) 0) := by
      simp [List.replicate_succ]
    rw [shiftLoop, read, Option.bind_some, front, place, store_one, Option.bind_some,
      ← List.length_append, store_one, Option.bind_some, next, ih (by omega)]

theorem pton6Shift_gap (room : (l ++ r).length ≤ 16) :
    ∃ a, assemble l (some r) = some a ∧ pton6Shift (pad (l ++ r)) (l ++ r).length (some l.length) =
      .one a := by
  rw [List.length_append] at room
  have count : (l ++ r).length - l.length = r.length := by
    rw [List.length_append, Nat.add_sub_cancel_left]
  rw [assemble, if_neg (not_lt.mpr room)]
  by_cases full : l.length + r.length = 16
  · have shifted := shiftLoop_full (l := l) (r := r) (g := 0) full rfl
    refine ⟨_, if_pos full, ?_⟩
    rw [pton6Shift, count, pad, List.length_append, full, Nat.sub_self, List.replicate_zero,
      List.append_assoc]
    rw [List.replicate_zero] at shifted
    simp only [shifted]
  · obtain ⟨g, gap⟩ : ∃ g, 16 - (l.length + r.length) = g + 1 :=
      ⟨15 - (l.length + r.length), by omega⟩
    have shifted := shiftLoop_gap (l := l) (g := g) (by omega)
      (show r.length + ([] : Bytes).length = r.length from rfl)
    refine ⟨_, if_neg full, ?_⟩
    rw [pton6Shift, count, pad, List.length_append, gap, List.append_assoc]
    rw [List.append_nil, List.append_nil] at shifted
    simp only [shifted, List.append_assoc]

theorem pton6Shift_full (l : Bytes) :
    pton6Shift (pad l) l.length none =
      match assemble l none with | some a => .one a | none => .zero := by
  rw [pton6Shift, assemble]
  by_cases full : l.length = 16
  · rw [if_pos full, if_neg (not_not.mpr (show l.length = in6AddrSz from full)), pad, full]
    simp
  · rw [if_neg full, if_pos (show l.length ≠ in6AddrSz from full)]

end Shift

/-! ### What is accepted -/

theorem Inside.end_eq (inside : Inside st d c tok []) :
    (pton6End st = .zero ∧ ∀ d' c', ¬ Rest d c tok d' c') ∨
      ∃ b, (d ++ b).length ≤ 16 ∧ pton6End st = pton6Shift (pad (d ++ b)) (d ++ b).length c ∧
        ∀ d' c', Rest d c tok d' c' ↔ d' = d ++ b ∧ c' = c := by
  have ends (d' : Bytes) (c' : Option Nat) : Rest d c tok d' c' ↔ _ := rest_end inside.digits
  by_cases first : tok = []
  · have saw : ¬ st.sawXdigit = true := fun saw => inside.saw_iff.mp saw first
    refine .inr ⟨[], by rw [List.append_nil]; exact inside.room, ?_, fun d' c' => ?_⟩
    · rw [pton6End, if_neg saw, inside.tmp, inside.tp, inside.colonp, List.append_nil]
    · rw [ends, List.append_nil]
      constructor
      · rintro (⟨-, same⟩ | ⟨n, group, -⟩)
        · exact same
        · exact absurd first group.nonempty
      · exact fun same => .inl ⟨first, same⟩
  · have saw := inside.saw_iff.mpr first
    by_cases room : (d ++ word st.val).length ≤ 16
    · have fits : ¬ in6AddrSz < st.tp + int16Sz := fun full => inside.full_iff.mp full room
      have tp : st.tp + int16Sz = (d ++ word st.val).length := by
        rw [inside.tp, List.length_append, length_word, int16Sz]
      refine .inr ⟨word st.val, room, ?_, fun d' c' => ?_⟩
      · rw [pton6End, if_pos saw, if_neg fits, inside.store_word room, tp, inside.colonp]
      · rw [ends]
        constructor
        · rintro (⟨none_, -⟩ | ⟨n, group, -, same⟩)
          · exact absurd none_ first
          · obtain ⟨-, rfl⟩ := inside.group_iff.mp group
            exact same
        · exact fun same => .inr ⟨st.val, inside.group_iff.mpr ⟨first, rfl⟩, room, same⟩
    · refine .inl ⟨?_, fun d' c' rest => ?_⟩
      · rw [pton6End, if_pos saw, if_pos (inside.full_iff.mpr room)]
      · rcases (ends d' c').mp rest with ⟨none_, -⟩ | ⟨n, group, fits, -⟩
        · exact first none_
        · obtain ⟨-, rfl⟩ := inside.group_iff.mp group
          exact room fits

theorem Inside.loop_eq (inside : Inside st d c tok src) :
    (pton6Loop st src = .zero ∧ ∀ d' c', ¬ Rest d c (tok ++ src) d' c') ∨
      ∃ d' c', d'.length ≤ 16 ∧ pton6Loop st src = pton6Shift (pad d') d'.length c' ∧
        ∀ d'' c'', Rest d c (tok ++ src) d'' c'' ↔ d'' = d' ∧ c'' = c' := by
  induction src generalizing st d c tok with
  | nil =>
    rw [List.append_nil]
    exact inside.end_eq.imp_right fun ⟨b, all⟩ => ⟨d ++ b, c, all⟩
  | cons ch src ih =>
    cases inside.step with
    | goes next same text =>
      simp only [same, text]
      exact ih next
    | ends room same text => exact .inr ⟨_, _, room, same, text⟩
    | stops same text => exact .inl ⟨same, text⟩

theorem Rest.tail {g : Nat} (rest : Rest d (some g) s d' c') :
    ∃ b, Tail s b ∧ d' = d ++ b ∧ c' = some g := by
  generalize same : some g = gap at rest
  induction rest with
  | nothing => exact ⟨[], .nothing, (List.append_nil _).symm, rfl⟩
  | group group _ => exact ⟨_, .group group, rfl, rfl⟩
  | dotted dotted _ => exact ⟨_, .dotted dotted, rfl, rfl⟩
  | gap _ _ => cases same
  | cons group _ _ ih =>
    obtain ⟨b, tail, rfl, its⟩ := ih same
    exact ⟨_, .cons group tail, List.append_assoc _ _ _, its⟩

theorem Rest.whole (rest : Rest d none s d' c') :
    ∃ l r, Whole s l r ∧ d' = d ++ l ++ r.getD [] ∧ c' = r.map fun _ => (d ++ l).length := by
  generalize same : none = gap at rest
  induction rest with
  | nothing => exact ⟨[], none, .full .nothing, by simp, same.symm⟩
  | group group _ => exact ⟨_, none, .full (.group group), by simp, same.symm⟩
  | dotted dotted _ => exact ⟨_, none, .full (.dotted dotted), by simp, same.symm⟩
  | gap rest _ =>
    obtain ⟨b, tail, rfl, rfl⟩ := rest.tail
    exact ⟨[], some b, .gap tail, by simp, by simp⟩
  | cons group _ _ ih =>
    obtain ⟨l, r, whole, rfl, rfl⟩ := ih same
    exact ⟨_, r, .cons group whole, by simp, by simp⟩

theorem Tail.rest (tail : Tail s b) (room : (d ++ b).length ≤ 16) : Rest d c s (d ++ b) c := by
  induction tail generalizing d with
  | nothing =>
    rw [List.append_nil]
    exact .nothing
  | group group => exact .group group room
  | dotted dotted => exact .dotted dotted room
  | cons group _ ih =>
    rw [← List.append_assoc] at room ⊢
    exact .cons group (le_trans (List.sublist_append_left _ _).length_le room) (ih room)

theorem Whole.rest {l : Bytes} {r : Option Bytes} (whole : Whole s l r)
    (room : (d ++ l ++ r.getD []).length ≤ 16) :
    Rest d none s (d ++ l ++ r.getD []) (r.map fun _ => (d ++ l).length) := by
  induction whole generalizing d with
  | full tail =>
    rw [Option.getD_none, List.append_nil] at room ⊢
    exact tail.rest room
  | gap tail =>
    rw [List.append_nil] at room ⊢
    exact .gap (tail.rest room)
  | cons group _ ih =>
    rw [← List.append_assoc] at room ⊢
    refine .cons group (le_trans ?_ room) (ih room)
    simp only [List.length_append]
    omega

theorem shift_assemble {l : Bytes} {r : Option Bytes} (room : (l ++ r.getD []).length ≤ 16) :
    pton6Shift (pad (l ++ r.getD [])) (l ++ r.getD []).length (r.map fun _ => l.length) =
      match assemble l r with | some a => .one a | none => .zero := by
  cases r with
  | none =>
    rw [Option.getD_none, List.append_nil]
    exact pton6Shift_full l
  | some r =>
    rw [Option.getD_some] at room ⊢
    obtain ⟨a, its, shifted⟩ := pton6Shift_gap room
    rw [Option.map_some, shifted, its]

/-- Where there is an address, it fits. -/
theorem room_of_assemble {l a : Bytes} {r : Option Bytes} (its : assemble l r = some a) :
    (l ++ r.getD []).length ≤ 16 := by
  cases r with
  | none =>
    rw [assemble] at its
    split at its
    · next full => exact (by simp [full])
    · cases its
  | some r =>
    rw [assemble] at its
    split at its
    · cases its
    · next fits => exact (by simpa using fits)

theorem inside_start (src : Bytes) :
    Inside ⟨List.replicate in6AddrSz 0, 0, none, src, false, 0⟩ [] none [] src :=
  ⟨Nat.zero_le _, nofun, rfl, rfl, rfl, rfl, rfl, rfl, Nat.zero_le _⟩

theorem pton6Start_eq_one (src a : Bytes) :
    pton6Start src = .one a ↔ ∃ l r, Whole src l r ∧ assemble l r = some a := by
  have found {l : Bytes} {r : Option Bytes} (whole : Whole src l r) (its : assemble l r = some a) :
      Rest [] none ([] ++ src) (l ++ r.getD []) (r.map fun _ => l.length) :=
        whole.rest (room_of_assemble its)
  rw [pton6Start]
  rcases (inside_start src).loop_eq with ⟨same, text⟩ | ⟨d', c', room, same, text⟩
  · rw [same]
    refine iff_of_false nofun ?_
    rintro ⟨l, r, whole, its⟩
    exact text _ _ (found whole its)
  · rw [same]
    constructor
    · intro accepts
      obtain ⟨l, r, whole, rfl, rfl⟩ := ((text d' c').mpr ⟨rfl, rfl⟩).whole
      rw [List.nil_append] at accepts room
      rw [shift_assemble room] at accepts
      refine ⟨l, r, whole, ?_⟩
      cases its : assemble l r with
      | none => simp [its] at accepts
      | some a' =>
        rw [its] at accepts
        rw [Pton.one.inj accepts]
    · rintro ⟨l, r, whole, its⟩
      obtain ⟨rfl, rfl⟩ := (text _ _).mp (found whole its)
      rw [shift_assemble room, its]

theorem pton6Start_ne_fault (src : Bytes) : pton6Start src ≠ .fault := by
  rw [pton6Start]
  rcases (inside_start src).loop_eq with ⟨same, -⟩ | ⟨d', c', room, same, text⟩
  · rw [same]
    nofun
  · obtain ⟨l, r, -, rfl, rfl⟩ := ((text d' c').mpr ⟨rfl, rfl⟩).whole
    rw [List.nil_append] at same room
    rw [same, shift_assemble room]
    split <;> nofun

theorem whole_colon {l : Bytes} {r : Option Bytes} :
    Whole (58 :: s) l r ↔ l = [] ∧ ∃ b, r = some b ∧ Tail s b := by
  have digits {t u : Bytes} {n : Nat} (group : Group t n) : 58 :: s ≠ t ++ u := by
    intro same
    cases t with
    | nil => exact group.nonempty rfl
    | cons b t =>
      obtain ⟨rfl, -⟩ := List.cons.inj same
      simpa [xdigit_colon] using group.digits 58 List.mem_cons_self
  constructor
  · intro whole
    generalize same : 58 :: s = text at whole
    cases whole with
    | full tail =>
      cases tail with
      | nothing => cases same
      | group group => exact absurd (same.trans (List.append_nil _).symm) (digits group)
      | dotted dotted =>
        have dotted' : Dotted 4 ([] ++ 58 :: s) _ := same ▸ dotted
        exact absurd (dotted'.stop nofun xdigit_colon) (by decide)
      | cons group _ => exact absurd same (digits group)
    | gap tail =>
      obtain rfl := (List.cons.inj same).2
      exact ⟨rfl, _, rfl, tail⟩
    | cons group _ => exact absurd same (digits group)
  · rintro ⟨rfl, b, rfl, tail⟩
    exact .gap tail

/-- What is accepted are groups, up to eight of them or fewer with `::`. -/
theorem inet_pton6_eq_one (src a : Bytes) :
    inet_pton6 src = .one a ↔ ∃ l r, Address src l r ∧ assemble l r = some a := by
  fun_cases inet_pton6 src with
  | case1 src =>
    rw [pton6Start_eq_one]
    constructor
    · rintro ⟨l, r, whole, its⟩
      obtain ⟨rfl, b, rfl, tail⟩ := whole_colon.mp whole
      exact ⟨[], some b, .leading tail, its⟩
    · rintro ⟨l, r, address, its⟩
      cases address with
      | plain first _ => exact absurd rfl first
      | leading tail => exact ⟨[], _, .gap tail, its⟩
  | case2 src other =>
    refine iff_of_false nofun ?_
    rintro ⟨l, r, address, its⟩
    cases address with
    | plain first _ => exact absurd rfl first
    | leading tail => exact other _ rfl
  | case3 src first second =>
    have plain : src.head? ≠ some 58 := by
      cases src with
      | nil => nofun
      | cons b src =>
        rintro same
        obtain rfl := Option.some.inj same
        exact second _ rfl
    rw [pton6Start_eq_one]
    constructor
    · rintro ⟨l, r, whole, its⟩
      exact ⟨l, r, .plain plain whole, its⟩
    · rintro ⟨l, r, address, its⟩
      cases address with
      | plain _ whole => exact ⟨l, r, whole, its⟩
      | leading tail => exact absurd rfl plain

theorem inet_pton6_ne_fault (src : Bytes) : inet_pton6 src ≠ .fault := by
  fun_cases inet_pton6 src with
  | case1 src => exact pton6Start_ne_fault _
  | case2 src other => nofun
  | case3 src first second => exact pton6Start_ne_fault _

end Unp
