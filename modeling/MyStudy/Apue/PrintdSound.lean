import MyStudy.Apue.DbRecord
import MyStudy.Apue.Printd

/-!
# What the threads of the spooler know

Every number has one job at most, and every job at most one thread that has to do with its files.
What each thread knows of them stays true until it does something to them itself.
-/
namespace Apue.Printd

open Directory

/-! ### Numbers -/

theorem toStringInt_injective : Function.Injective Zn.toStringInt := by
  intro m n same
  rw [← Zn.leadingInt_toStringInt m, ← Zn.leadingInt_toStringInt n, same]

theorem toStringInt_pos {n : Int} (pos : 0 < n) : Zn.toStringInt n = decimal n.toNat := by
  have nat : n = (n.toNat : Int) := by omega
  rw [nat, toStringInt_nat]
  rfl

theorem length_decimal_mono {m n : Nat} (le : m ≤ n) : (decimal m).length ≤ (decimal n).length := by
  have pos : 0 < (decimal n).length := List.length_pos_iff.mpr (decimal_ne_nil n)
  by_cases zero : n = 0
  · simp [zero, Nat.le_zero.mp (zero ▸ le)]
  · refine length_decimal_le _ m pos (le.trans_lt ?_)
    simpa [decimal, zero] using Nat.lt_base_pow_length_digits (b := 10) (by decide)

/-- Behind the number stands what was in the buffer before, and that is no digit. -/
theorem readJobno_toStringInt {n : Int} (pos : 0 < n) (range : n < 2 ^ 31) :
    readJobno (Zn.toStringInt n) = n := by
  have ends (c : UInt8) (first : (jobPath.drop (Zn.toStringInt n).length).head? = some c) :
      isDigit c = false := by
    have plain : ∀ c ∈ jobPath, isDigit c = false := by decide +kernel
    exact plain c (List.mem_of_mem_drop (List.mem_of_mem_head? first))
  have value := leadingInt_padded [] (jobPath.drop (Zn.toStringInt n).length) n.toNat (by simp) ends
  rw [List.nil_append, ← toStringInt_pos pos] at value
  rw [readJobno, if_neg (Zn.toStringInt_ne_nil n), Zn.atoi, value, max_eq_right (by omega),
    min_eq_right (by omega), Int.bmod_eq_of_le (by omega) (by omega)]
  omega

/-- What `update_jobno` has written so far: a number that was the next one once. -/
def Numbered (jobfile : Bytes) (nextjob : Int) : Prop :=
  jobfile = [] ∨ ∃ n, 0 < n ∧ n ≤ nextjob ∧ jobfile = Zn.toStringInt n

theorem Numbered.mono {jobfile : Bytes} {m n : Int} (numbered : Numbered jobfile m) (le : m ≤ n) :
    Numbered jobfile n := by
  rcases numbered with empty | ⟨k, pos, before, text⟩
  · exact .inl empty
  · exact .inr ⟨k, pos, before.trans le, text⟩

/-- The number that is written down is never longer than the next one. -/
theorem Numbered.write {jobfile : Bytes} {nextjob : Int} (numbered : Numbered jobfile nextjob)
    (pos : 0 < nextjob) :
    writeJobno jobfile nextjob = Zn.toStringInt nextjob := by
  have short : jobfile.length ≤ (Zn.toStringInt nextjob).length := by
    rcases numbered with rfl | ⟨k, some_, before, rfl⟩
    · simp
    · rw [toStringInt_pos some_, toStringInt_pos pos]
      exact length_decimal_mono (by omega)
  rw [writeJobno, List.drop_eq_nil_of_le short, List.append_nil]

theorem increment_eq {n : Int} (pos : 0 < n) (range : n + 1 < 2 ^ 31) : increment n = n + 1 := by
  rw [increment, Int.bmod_eq_of_le (by omega) (by omega), if_neg (by omega)]

/-! ### Names -/

theorem dataName_inj {i j : Int} : dataName i = dataName j ↔ i = j := by
  simp [dataName, toStringInt_injective.eq_iff]

theorem reqsName_inj {i j : Int} : reqsName i = reqsName j ↔ i = j := by
  simp [reqsName, toStringInt_injective.eq_iff]

@[simp] theorem dataName_ne_reqsName (i j : Int) : dataName i ≠ reqsName j := by
  simp [dataName, reqsName]

@[simp] theorem reqsName_ne_dataName (i j : Int) : reqsName i ≠ dataName j := by
  simp [dataName, reqsName]

/-- A name of the files of a job. -/
def Name.Of (n : Name) (jobid : Int) : Prop := n = dataName jobid ∨ n = reqsName jobid

theorem Name.Of.unique {n : Name} {i j : Int} (first : n.Of i) (second : n.Of j) : i = j := by
  rcases first with rfl | rfl <;> rcases second with same | same
  · exact dataName_inj.mp same
  · simp at same
  · simp at same
  · exact reqsName_inj.mp same

theorem dataName_of (jobid : Int) : (dataName jobid).Of jobid := .inl rfl

theorem reqsName_of (jobid : Int) : (reqsName jobid).Of jobid := .inr rfl

/-! ### Jobs -/

/-- What the printer gets for a job. -/
def request (printerName : Bytes) (job : Job) (data : Bytes) : Option Bytes :=
  (ippHeader printerName job).map fun ibuf =>
    httpHeader printerName (data.length + ibuf.length + extra job.req) ++ ibuf ++
      ((if job.req.isText then [8] else []) ++ data)

/-- A job is in the spool directory, as its client sent it. -/
def Spooled (fs : Directory Name) (a : Accepted) : Prop :=
  fs.text (dataName a.job.jobid) = some a.data ∧ fs.text (reqsName a.job.jobid) =
    some a.job.req.image

/-- The printer has got a job whole. -/
def IsPrinted (past : History) (a : Accepted) : Prop :=
  ∃ p ∈ past.printed, p.job = a.job ∧ request p.printerName a.job a.data = some p.wire

/-- What is left of the files of a job is as its client sent it. -/
def Own (fs : Directory Name) (a : Accepted) : Prop :=
  (∀ data, fs.text (dataName a.job.jobid) = some data → data = a.data) ∧
    ∀ bytes, fs.text (reqsName a.job.jobid) = some bytes → bytes = a.job.req.image

theorem Spooled.own {fs : Directory Name} {a : Accepted} (spooled : Spooled fs a) : Own fs a := by
  refine ⟨fun data text => ?_, fun bytes text => ?_⟩
  · rw [spooled.1, Option.some_inj] at text
    exact text.symm
  · rw [spooled.2, Option.some_inj] at text
    exact text.symm

theorem Own.shrinks {fs fs' : Directory Name} {a : Accepted} (own : Own fs a)
    (shrinks : ∀ n, Agree fs fs' n ∨ fs'.text n = none) : Own fs' a := by
  have before {n : Name} {bytes : Bytes} (text : fs'.text n = some bytes) :
      fs.text n = some bytes := by
    rcases shrinks n with agree | gone
    · exact agree.2.symm.trans text
    · rw [gone] at text
      cases text
  exact ⟨fun data text => own.1 data (before text), fun bytes text => own.2 bytes (before text)⟩

/-- What the printer got is a job as its client sent it, and no other one had its number. -/
def Delivered (past : History) (p : Printed) : Prop :=
  ∃ a ∈ past.received, a.job = p.job ∧ request p.printerName p.job a.data = some p.wire ∧
    ∀ b ∈ past.received, b.job.jobid = p.job.jobid → b = a

/-- The daemon reads a job out of its control file. -/
def Controlled (fs : Directory Name) (job : Job) : Prop :=
  ∃ bytes, fs.text (reqsName job.jobid) = some bytes ∧
    Printreq.ofImage (bytes.take sizeofPrintreq) = some job.req

theorem Spooled.controlled {fs : Directory Name} {a : Accepted} (spooled : Spooled fs a) :
    Controlled fs a.job := by
  refine ⟨_, spooled.2, ?_⟩
  rw [List.take_of_length_le Printreq.length_image.le]
  exact Printreq.ofImage_image

/-- A control file is of one job. -/
theorem Controlled.unique {fs : Directory Name} {job job' : Job} (first : Controlled fs job)
    (second : Controlled fs job') (same : job.jobid = job'.jobid) : job = job' := by
  obtain ⟨bytes, text, read⟩ := first
  obtain ⟨bytes', text', read'⟩ := second
  rw [same, text', Option.some_inj] at text
  rw [← text, read', Option.some_inj] at read
  cases job
  cases job'
  simp_all

theorem Own.job {fs : Directory Name} {a : Accepted} (own : Own fs a) {job : Job}
    (controlled : Controlled fs job) (same : a.job.jobid = job.jobid) : a.job = job := by
  obtain ⟨bytes, text, read⟩ := controlled
  have image := own.2 bytes (same ▸ text)
  rw [image, List.take_of_length_le Printreq.length_image.le, Printreq.ofImage_image,
    Option.some_inj] at read
  cases a with
  | mk its data =>
    cases its
    cases job
    simp_all

/-- Each control file that can be read is that of a job that was received. -/
def Recorded (fs : Directory Name) (past : History) : Prop :=
  ∀ job, Controlled fs job → ∃ a ∈ past.received, a.job = job

theorem Recorded.shrinks {fs fs' : Directory Name} {past : History} (recorded : Recorded fs past)
    (shrinks : ∀ jobid, Agree fs fs' (reqsName jobid) ∨ fs'.text (reqsName jobid) = none) :
    Recorded fs' past := by
  rintro job ⟨bytes, text, read⟩
  rcases shrinks job.jobid with agree | gone
  · exact recorded job ⟨bytes, agree.2.symm.trans text, read⟩
  · rw [gone] at text
    cases text

/-- A control file of which less is written than the daemon reads. -/
theorem Recorded.short {fs fs' : Directory Name} {past : History} {jobid : Int} {bytes : Bytes}
    (recorded : Recorded fs past) (others : ∀ n, n ≠ reqsName jobid → Agree fs fs' n)
    (its : fs'.text (reqsName jobid) = some bytes) (short : bytes.length < sizeofPrintreq) :
    Recorded fs' past := by
  rintro job ⟨bytes', text, read⟩
  by_cases same : job.jobid = jobid
  · rw [same, its, Option.some_inj] at text
    subst text
    rw [Printreq.ofImage_short (by rw [List.length_take]; omega)] at read
    cases read
  · have agree := others (reqsName job.jobid) fun its => same (reqsName_inj.mp its)
    exact recorded job ⟨bytes', agree.2.symm.trans text, read⟩

theorem IsPrinted.mono {past past' : History} {a : Accepted} (printed : IsPrinted past a)
    (grows : past.printed ⊆ past'.printed) : IsPrinted past' a := by
  obtain ⟨p, member, rest⟩ := printed
  exact ⟨p, grows member, rest⟩

/-! ### Threads -/

/-- The number that a client thread has. -/
def Client.jobid : Client → Option Int
  | .idle | .header | .number _ => none
  | .creatData _ jobid | .reading _ jobid _ _ _ | .writing _ jobid _ _ _ | .creatReqs _ jobid _
  | .writeReqs _ jobid _ _ | .respond _ jobid _ | .addJob _ jobid _ | .unlinkReqs
    jobid | .unlinkData jobid =>
    some jobid

/-- The job whose client knows its number, and that is not yet on the list. -/
def Client.adding : Client → Option Job
  | .addJob req jobid _ => some ⟨jobid, req⟩
  | _ => none

/-- The job whose control file a client thread has written. -/
def Client.whole : Client → Option Accepted
  | .respond req jobid got | .addJob req jobid got => some ⟨⟨jobid, req⟩, got⟩
  | _ => none

theorem Client.adding_eq_none {c : Client} (early : c.whole = none) : c.adding = none := by
  cases c <;> first | rfl | cases early

/-- What a client thread knows of its files. -/
def Client.Fine (fs : Directory Name) : Client → Prop
  | .reading _ jobid file _ got | .writing _ jobid file got _ =>
    fs.find (dataName jobid) = some file ∧ fs.text (dataName jobid) = some got
  | .creatReqs _ jobid got => fs.text (dataName jobid) = some got
  | .writeReqs _ jobid file got =>
    fs.text (dataName jobid) = some got ∧ fs.find (reqsName jobid) = some file ∧
      fs.text (reqsName jobid) = some []
  | .respond req jobid got | .addJob req jobid got => Spooled fs ⟨⟨jobid, req⟩, got⟩
  | _ => True

def Main.entries : Main → List Bytes
  | .build entries | .unlinkReqs _ entries | .unlinkData _ entries | .addJob _ entries => entries
  | _ => []

def Main.job : Main → Option Job
  | .addJob job _ => some job
  | _ => none

/-- The entry that `build_qonstart` throws away. -/
def Main.drops : Main → Option Bytes
  | .unlinkReqs dName _ | .unlinkData dName _ => some dName
  | _ => none

/-- What the printer thread knows: of the document, and of what the printer has got. -/
def Printer.Fine (fs : Directory Name) (printerName : Bytes) (past : History) : Printer → Prop
  | .fstat job file => fs.find (dataName job.jobid) = some file
  | .connect job file size | .headers job file size =>
    fs.find (dataName job.jobid) = some file ∧ (fs.content file).length = size
  | .backspace job file wire =>
    fs.find (dataName job.jobid) = some file ∧
      request printerName job (fs.content file) = some (wire ++ ([8] ++ fs.content file))
  | .read job file offset wire =>
    fs.find (dataName job.jobid) = some file ∧
      request printerName job (fs.content file) = some (wire ++ (fs.content file).drop offset)
  | .write job file offset chunk wire =>
    fs.find (dataName job.jobid) = some file ∧
      request printerName job (fs.content file) =
        some (wire ++ (chunk ++ (fs.content file).drop offset))
  | .status job wire =>
    ∃ data, fs.text (dataName job.jobid) = some data ∧ request printerName job data = some wire
  | .unlinkData job | .unlinkReqs job =>
    ∀ a ∈ past.accepted, a.job.jobid = job.jobid → IsPrinted past a
  | _ => True

variable {Tid : Type} {s s' : State Tid} {t : Tid}

/-- The jobs on the list, and those that a thread has at hand. -/
def State.work (s : State Tid) : List Job := s.main.job.toList ++ (s.printer.job.toList ++ s.queue)

/-- A job that was accepted and is not printed yet is at hand: on the list or about to be put on it,
or with the printer thread, unless that could not open its file. -/
def AtHand (s : State Tid) (a : Accepted) : Prop :=
  a.job ∈ s.work ∨ a.job ∈ s.past.done ∨ (∃ t, (s.clients t).adding = some a.job) ∨
    Zn.toStringInt a.job.jobid ∈ s.main.entries

/-- What the threads have to do with the files and with the numbers. -/
structure Sound (s : State Tid) : Prop where
  pos : 0 < s.nextjob
  range : s.nextjob < 2 ^ 31
  numbered : Numbered s.jobfile s.nextjob
  down : s.main = .down → readJobno s.jobfile = s.nextjob ∧ s.queue = [] ∧ s.printer = .waiting
  unharmed : s.main ≠ .overflow
  names : ∀ n, (s.fs.find n).isSome → ∃ jobid, 0 < jobid ∧ jobid < s.nextjob ∧ n.Of jobid
  quiet : s.main ≠ .serving → ∀ t, s.clients t = .idle
  client : ∀ t jobid, (s.clients t).jobid = some jobid → 0 < jobid ∧ jobid < s.nextjob ∧
    jobid ∉ s.work.map Job.jobid
  apart : ∀ t u jobid, (s.clients t).jobid = some jobid → (s.clients u).jobid = some jobid → t = u
  fine : ∀ t, (s.clients t).Fine s.fs
  fresh : ∀ t jobid, (s.clients t).jobid = some jobid → (s.clients t).whole = none →
    ∀ a ∈ s.past.received, a.job.jobid ≠ jobid
  whole : ∀ t a, (s.clients t).whole = some a → a ∈ s.past.received
  work : ∀ job ∈ s.work, 0 < job.jobid ∧ job.jobid < s.nextjob ∧ Controlled s.fs job
  once : (s.work.map Job.jobid).Nodup
  entries : ∀ dName ∈ s.main.drops.toList ++ s.main.entries, ∃ jobid, 0 < jobid ∧
    jobid < s.nextjob ∧
    dName = Zn.toStringInt jobid ∧ jobid ∉ s.work.map Job.jobid
  entriesOnce : (s.main.drops.toList ++ s.main.entries).Nodup
  drops : ∀ dName, s.main.drops = some dName →
    ∀ a ∈ s.past.accepted, Zn.toStringInt a.job.jobid = dName →
    IsPrinted s.past a
  printer : s.printer.Fine s.fs s.printerName s.past
  received : ∀ a ∈ s.past.received, 0 < a.job.jobid ∧ a.job.jobid < s.nextjob
  recorded : Recorded s.fs s.past
  accepted : ∀ a ∈ s.past.accepted, a ∈ s.past.received
  kept : ∀ a ∈ s.past.accepted, Spooled s.fs a ∨ IsPrinted s.past a
  own : ∀ a ∈ s.past.received, Own s.fs a
  printed : ∀ p ∈ s.past.printed, p.job.jobid < s.nextjob ∧
    (∀ t, (s.clients t).jobid ≠ some p.job.jobid) ∧
    Delivered s.past p
  atHand : s.main ≠ .down → ∀ a ∈ s.past.accepted, IsPrinted s.past a ∨ AtHand s a

/-! ### Steps that leave the files of a job alone -/

section Agree

variable {fs fs' : Directory Name}

theorem Spooled.agree {a : Accepted} (spooled : Spooled fs a)
    (agree : ∀ n : Name, n.Of a.job.jobid → Agree fs fs' n) : Spooled fs' a :=
  ⟨(agree _ (dataName_of _)).2.trans spooled.1, (agree _ (reqsName_of _)).2.trans spooled.2⟩

theorem Own.agree {a : Accepted} (own : Own fs a)
    (agree : ∀ n : Name, n.Of a.job.jobid → Agree fs fs' n) :
    Own fs' a := by
  rwa [Own, (agree _ (dataName_of _)).2, (agree _ (reqsName_of _)).2]

theorem Controlled.agree {job : Job} (controlled : Controlled fs job)
    (agree : ∀ n : Name, n.Of job.jobid → Agree fs fs' n) : Controlled fs' job := by
  obtain ⟨bytes, text, read⟩ := controlled
  exact ⟨bytes, (agree _ (reqsName_of _)).2.trans text, read⟩

theorem Client.Fine.agree {c : Client} (fine : c.Fine fs)
    (agree : ∀ jobid, c.jobid = some jobid → ∀ n : Name, n.Of jobid → Agree fs fs' n) :
    c.Fine fs' := by
  have same (jobid : Int) (its : c.jobid = some jobid) := agree jobid its _ (dataName_of jobid)
  have same' (jobid : Int) (its : c.jobid = some jobid) := agree jobid its _ (reqsName_of jobid)
  cases c with
  | reading | writing | creatReqs | writeReqs | respond | addJob =>
    obtain ⟨find, text⟩ := same _ rfl
    obtain ⟨find', text'⟩ := same' _ rfl
    simpa [Client.Fine, Spooled, find, text, find', text'] using fine
  | _ => trivial

theorem Printer.Fine.agree {printerName : Bytes} {past : History} {p : Printer}
    (fine : p.Fine fs printerName past)
    (agree : ∀ job, p.job = some job → ∀ n : Name, n.Of job.jobid → Agree fs fs' n) :
    p.Fine fs' printerName past := by
  have same (job : Job) (its : p.job = some job) := agree job its _ (dataName_of job.jobid)
  cases p with
  | fstat job file =>
    have found := (same job rfl).1
    simpa [Printer.Fine, found] using fine
  | connect job file | headers job file | backspace job file | read job file | write job file =>
    have found := (same job rfl).1
    have content := (same job rfl).content fine.1
    simpa [Printer.Fine, found, content] using fine
  | status job wire =>
    have text := (same job rfl).2
    simpa [Printer.Fine, text] using fine
  | unlinkData job | unlinkReqs job => exact fine
  | _ => trivial

end Agree

end Apue.Printd
