import MyStudy.Lib.SortedCut
import MyStudy.Zn.Mailbox

/-!
# The limit of a mailbox

`zn_mailbox_limiter` keeps the mails whose dates come first as texts. The dates are numbers of
seconds, and a number that has more digits may come first as a text.
-/
namespace Zn

/-! ### Texts of digits -/

theorem numeral_cons (d : UInt8) (ds : Bytes) :
    numeral 10 (d :: ds) = digitVal d * 10 ^ ds.length + numeral 10 ds := by
  induction ds using List.reverseRecOn with
  | nil => simp [numeral]
  | append_singleton ds e ih =>
    rw [← List.cons_append, numeral_snoc, numeral_snoc, ih, List.length_append,
      List.length_singleton, Nat.pow_succ]
    ring

theorem numeral_lt (ds : Bytes) (digits : ∀ d ∈ ds, isDigit d = true) :
    numeral 10 ds < 10 ^ ds.length := by
  induction ds with
  | nil => decide
  | cons d ds ih =>
    obtain ⟨digit, later⟩ := List.forall_mem_cons.mp digits
    have rest := ih later
    have first := digitVal_lt d digit
    rw [numeral_cons, List.length_cons, Nat.pow_succ]
    calc digitVal d * 10 ^ ds.length + numeral 10 ds
        < digitVal d * 10 ^ ds.length + 10 ^ ds.length := by omega
      _ = (digitVal d + 1) * 10 ^ ds.length := by ring
      _ ≤ 10 * 10 ^ ds.length := Nat.mul_le_mul_right _ first
      _ = 10 ^ ds.length * 10 := by ring

/-- Of two texts of as many digits the smaller number comes first. -/
theorem lt_of_numeral_lt (ds es : Bytes) (digits : ∀ d ∈ ds, isDigit d = true)
    (digits' : ∀ e ∈ es, isDigit e = true) (length : ds.length = es.length)
    (less : numeral 10 ds < numeral 10 es) : ds < es := by
  induction ds generalizing es with
  | nil =>
    rw [List.length_nil, eq_comm, List.length_eq_zero_iff] at length
    rw [length] at less
    exact absurd less (lt_irrefl _)
  | cons d ds ih =>
    cases es with
    | nil => cases length
    | cons e es =>
      obtain ⟨digit, later⟩ := List.forall_mem_cons.mp digits
      obtain ⟨digit', later'⟩ := List.forall_mem_cons.mp digits'
      have length' : ds.length = es.length := Nat.succ.inj length
      have small := numeral_lt ds later
      have small' := numeral_lt es later'
      rw [numeral_cons, numeral_cons, length'] at less
      rw [length'] at small
      have value := (isDigit_iff d).mp digit
      have value' := (isDigit_iff e).mp digit'
      rw [List.cons_lt_cons_iff]
      rcases Nat.lt_trichotomy (digitVal d) (digitVal e) with before | same | behind
      · left
        rw [digitVal, digitVal] at before
        rw [UInt8.lt_iff_toNat_lt]
        omega
      · right
        refine ⟨?_, ih es later later' length' (by rw [same] at less; omega)⟩
        rw [← digitByte_digitVal d digit, ← digitByte_digitVal e digit', same]
      · -- a larger first digit outweighs all the others
        have more : (digitVal e + 1) * 10 ^ es.length ≤ digitVal d * 10 ^ es.length :=
          Nat.mul_le_mul_right _ behind
        rw [Nat.add_mul, Nat.one_mul] at more
        omega

/-! ### The limiter -/

/-- `compare_func` of the limiter. -/
def datedBefore (a b : MailboxEntry) : Bool := decide (a.metafile.date < b.metafile.date)

/-- The date as a number. -/
def MailboxEntry.epoch (e : MailboxEntry) : Nat := numeral 10 e.metafile.date

theorem strictWeak_datedBefore : StrictWeak datedBefore where
  asymm a b less := by
    rw [datedBefore, decide_eq_true_eq] at less
    rw [datedBefore, decide_eq_false_iff_not]
    exact List.lt_asymm less
  trans_not a b c ab bc := by
    rw [datedBefore, decide_eq_false_iff_not, List.not_lt] at ab bc ⊢
    exact List.le_trans bc ab

/-- Neither date comes first: they are the same text. -/
theorem equal_date {a b : MailboxEntry} (equal : Equal datedBefore a b) :
    a.metafile.date = b.metafile.date := by
  obtain ⟨ab, ba⟩ := equal
  rw [datedBefore, decide_eq_false_iff_not, List.not_lt] at ab ba
  exact List.le_antisymm ba ab

/-- All of the mailbox up to the limit is kept, and no mail is dropped that is earlier than one that
is kept. -/
def KeepsEarliest (limit : Nat) (entries kept : List MailboxEntry) : Prop :=
  kept.length = min entries.length limit ∧
    ∃ dropped, (kept ++ dropped).Perm entries ∧ ∀ b ∈ kept, ∀ a ∈ dropped, b.epoch ≤ a.epoch

/-- Of two mails the later one has at least the limit before it as texts, or the earlier one has no
more than the limit up to it. -/
def DatesAgree (limit : Nat) (entries : List MailboxEntry) : Prop :=
  ∀ a ∈ entries, ∀ b ∈ entries, a.epoch < b.epoch →
    limit ≤ entries.countP (fun e => datedBefore e b) ∨
    (entries.countP fun e => !datedBefore a e) ≤ limit

variable (cfg : Config) (stdSort : ComparisonSort) (entries : List MailboxEntry)

theorem mailboxLimiter_keepsEarliest_iff :
    KeepsEarliest cfg.nsimMailStoreMax entries (mailboxLimiter cfg stdSort entries) ↔
      DatesAgree cfg.nsimMailStoreMax entries := by
  by_cases exceeds : entries.length > cfg.nsimMailStoreMax
  · have cut : mailboxLimiter cfg stdSort entries =
        (stdSort.sort datedBefore entries).take cfg.nsimMailStoreMax := if_pos exceeds
    have whole := stdSort.take_append_drop datedBefore entries cfg.nsimMailStoreMax
    have perm := stdSort.perm datedBefore entries
    have length : ((stdSort.sort datedBefore entries).take cfg.nsimMailStoreMax).length =
        min entries.length cfg.nsimMailStoreMax := by
      rw [List.length_take, perm.length_eq, min_comm]
    have parts := stdSort.cut_iff strictWeak_datedBefore (fun a b => a.epoch < b.epoch)
      (fun a a' b b' equalA equalB less => by
        rw [MailboxEntry.epoch, MailboxEntry.epoch, equal_date equalA, equal_date equalB]
        exact less) exceeds.le
    rw [DatesAgree, ← parts, cut, KeepsEarliest]
    constructor
    · rintro ⟨_, dropped, all, order⟩ b kept a behind
      -- what is dropped is what is behind the cut
      rw [← whole] at perm
      have same := (List.perm_append_left_iff _).mp (all.trans perm.symm)
      exact Nat.not_lt.mpr (order b kept a (same.mem_iff.mpr behind))
    · intro order
      refine ⟨length, _, ?_, fun b kept a behind => Nat.not_lt.mp (order b kept a behind)⟩
      rw [whole]
      exact perm
  · have keeps : mailboxLimiter cfg stdSort entries = entries := if_neg exceeds
    rw [keeps]
    refine iff_of_true ⟨(min_eq_left (Nat.not_lt.mp exceeds)).symm, [], ?_, ?_⟩ fun a _ b _ _ => ?_
    · rw [List.append_nil]
    · exact fun b _ a none_ => absurd none_ List.not_mem_nil
    · exact .inr (List.countP_le_length.trans (Nat.not_lt.mp exceeds))

/-- Dates of as many digits agree with their texts. -/
theorem datesAgree_of_length (limit : Nat) (entries : List MailboxEntry)
    (digits : ∀ e ∈ entries, ∀ d ∈ e.metafile.date, isDigit d = true)
    (length : ∀ a ∈ entries, ∀ b ∈ entries, a.metafile.date.length = b.metafile.date.length) :
    DatesAgree limit entries := by
  intro a memberA b memberB less
  have first : a.metafile.date < b.metafile.date :=
    lt_of_numeral_lt _ _ (digits a memberA) (digits b memberB) (length a memberA b memberB) less
  rcases Nat.lt_or_ge limit (entries.countP fun e => !datedBefore a e) with many | few
  · left
    -- whatever is not behind the earlier one is before the later one
    refine many.le.trans (List.countP_mono_left fun e _ upto => ?_)
    rw [Bool.not_eq_true', datedBefore, decide_eq_false_iff_not, List.not_lt] at upto
    rw [datedBefore, decide_eq_true_eq]
    exact List.lt_of_le_of_lt upto first
  · exact .inr few

/-- The limiter keeps the earliest mails just when the texts of the dates agree with the dates about
the cut, which is so if they all have as many digits. -/
theorem mailboxLimiter_iff :
    (KeepsEarliest cfg.nsimMailStoreMax entries (mailboxLimiter cfg stdSort entries) ↔
        DatesAgree cfg.nsimMailStoreMax entries) ∧
      ((∀ e ∈ entries, ∀ d ∈ e.metafile.date, isDigit d = true) →
        (∀ a ∈ entries, ∀ b ∈ entries, a.metafile.date.length = b.metafile.date.length) →
          KeepsEarliest cfg.nsimMailStoreMax entries (mailboxLimiter cfg stdSort entries)) :=
  ⟨mailboxLimiter_keepsEarliest_iff cfg stdSort entries, fun digits length =>
    (mailboxLimiter_keepsEarliest_iff cfg stdSort entries).mpr
      (datesAgree_of_length cfg.nsimMailStoreMax entries digits length)⟩

/-- A store for a single mail. -/
def Config.oneMail : Config := ⟨[], 257, 255, [], 1, 0⟩

/-- A mail with a date. -/
def datedMail (date : Bytes) : MailboxEntry := .ofMeta ⟨[], true, date, 300, 257⟩

theorem mailboxLimiter_same_length :
    KeepsEarliest 1 [datedMail (ascii "1400000001"), datedMail (ascii "1400000000")]
      (mailboxLimiter .oneMail .insertion
        [datedMail (ascii "1400000001"), datedMail (ascii "1400000000")]) :=
  (mailboxLimiter_iff .oneMail .insertion _).2 (by decide +kernel) (by decide +kernel)

/-- A mail of September 2001 is kept, and one of the day before is not. -/
theorem mailboxLimiter_drops_earlier :
    ¬ KeepsEarliest 1 [datedMail (ascii "999999999"), datedMail (ascii "1000000000")]
      (mailboxLimiter .oneMail .insertion
        [datedMail (ascii "999999999"), datedMail (ascii "1000000000")]) := by
  intro keeps
  have agree := (mailboxLimiter_keepsEarliest_iff .oneMail .insertion _).mp keeps
  exact absurd (agree _ (by simp) _ (by simp)
    (by decide +kernel : (datedMail (ascii "999999999")).epoch <
    (datedMail (ascii "1000000000")).epoch)) (by decide +kernel)

end Zn
