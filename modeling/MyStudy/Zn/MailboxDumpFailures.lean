import MyStudy.Lib.Transition
import MyStudy.Zn.MailboxDump
import MyStudy.Zn.UntarContent

/-!
# Dumping to a failing file system

`writefile` notices a failed `write` only. A file that cannot be opened, or whose buffer does not
reach the disk when it is closed, passes for one that was written; the digest is computed from the
memory, and so a mailbox entry may be bound to a file without its mail.

## Main result

`dump_stores_iff`: an archive is stored as `on_write` says exactly when no call meets one of these
failures.
-/
namespace Zn

/-! ### Files in the calls of `feed` -/

/-- A call that does not complete a file is followed by one for the same file. -/
def SameFile (call next : WriteCall) : Prop := call.isLast = false → next.info.name = call.info.name

/-- A file that is begun, followed by the rest of its calls and more. -/
def continueGroup (name content : Bytes) : List (Bytes × Bytes) → List (Bytes × Bytes)
  | [] => [(name, content)]
  | (_, more) :: groups => (name, content ++ more) :: groups

theorem continueGroup_continueGroup (name name' content more : Bytes)
    (groups : List (Bytes × Bytes)) :
    continueGroup name content (continueGroup name' more groups) =
      continueGroup name (content ++ more) groups := by
  cases groups <;> simp [continueGroup]

theorem groupCalls_notLast (call : WriteCall) (calls : List WriteCall)
    (more : call.isLast = false) :
    groupCalls (call :: calls) = continueGroup call.info.name call.content (groupCalls calls) := by
  cases rest : groupCalls calls with
  | nil => simp [groupCalls, more, rest, continueGroup]
  | cons group groups => simp [groupCalls, more, rest, continueGroup]

namespace UntarStream

variable {ρ : Type} (set : SetTarInfo ρ)

/-- The calls for one block: at most one, which completes its file or leaves the stream in it. -/
theorem feedBlock_calls (s : UntarStream ρ) (block : Bytes) (whole : block.length = tarBlockSize) :
    (feedBlock set s block).2 = [] ∧ s.status ≠ .content ∨
      ∃ call, (feedBlock set s block).2 = [call] ∧ s.status = .content ∧
        call.info.name = s.tarInfo.name ∧
        (call.isLast = false → (feedBlock set s block).1.status = .content ∧
          (feedBlock set s block).1.tarInfo.name = s.tarInfo.name) := by
  cases status : s.status with
  | header =>
    left
    simp only [feedBlock, status]
    split <;> exact ⟨rfl, by simp⟩
  | longnameHeader =>
    left
    simp only [feedBlock, status]
    split <;> exact ⟨rfl, by simp⟩
  | longname =>
    left
    simp only [feedBlock, status]
    split <;> exact ⟨rfl, by simp⟩
  | content =>
    right
    simp only [feedBlock, status]
    split
    · exact ⟨_, rfl, trivial, rfl, fun _ => ⟨rfl, rfl⟩⟩
    next last =>
      refine ⟨_, rfl, trivial, rfl, fun more => absurd more ?_⟩
      -- the rest of the file fits into the block
      rw [Bool.not_eq_false, WriteCall.isLast, decide_eq_true_eq, List.length_take, whole]
      exact Nat.min_eq_left (Nat.le_of_not_lt last)

theorem run_sameFile (blocks : List Bytes) (s : UntarStream ρ)
    (whole : ∀ block ∈ blocks, block.length = tarBlockSize) :
    ((machine set).run s blocks).2.IsChain SameFile ∧
      (s.status = .content → ∀ call, ((machine set).run s blocks).2.head? = some call →
        call.info.name = s.tarInfo.name) := by
  induction blocks generalizing s with
  | nil => simp
  | cons block blocks ih =>
    cases halt : (machine set).halted s with
    | true => simp [BlockMachine.run_halted _ s _ halt]
    | false =>
      rw [BlockMachine.run_cons _ s block blocks halt]
      have step : (machine set).step s block = feedBlock set s block := rfl
      obtain ⟨chain, first⟩ :=
        ih (feedBlock set s block).1 fun b member => whole b (by simp [member])
      rcases feedBlock_calls set s block (whole block (by simp)) with
        ⟨none_, other⟩ | ⟨call, one, _, name, more⟩
      · simp only [step, none_, List.nil_append]
        exact ⟨chain, fun busy => absurd busy other⟩
      · simp only [step, one, List.singleton_append]
        refine ⟨List.isChain_cons.mpr ⟨fun next found notLast => ?_, chain⟩, ?_⟩
        -- the stream is still in the file
        · obtain ⟨busy, same⟩ := more notLast
          rw [name, ← same]
          exact first busy next found
        · rintro _ call' ⟨⟩
          exact name

/-- The calls that pieces of any archive lead to. -/
theorem feedAll_sameFile (s : UntarStream ρ) (pieces : List Bytes) :
    (feedAll set (s, []) pieces).2.IsChain SameFile := by
  rw [feedAll_eq_machine, ((machine set).feedAll_eq_run s pieces).2.1]
  exact (run_sameFile set _ s fun block => BlockMachine.mem_blocks_length _ _ block).1

end UntarStream

/-! ### What is stored -/

section Disk

variable {ι : Type} [DecidableEq ι] (d : Disk ι) (outcome : WriteOutcome) (filename data : Bytes)

/-- A failure that `writefile` does not notice: the file cannot be opened, or bytes are lost when it
is closed. Without data there is nothing to lose. -/
def SilentFailure : Prop :=
  data ≠ [] ∧ (d.opens filename = none ∨ outcome = .openFails ∨
    ∃ taken, outcome = .flushFails taken ∧ taken < data.length)

/-- `zn_untar_stream::on_write` appends the whole block to the file, or it throws. -/
def StoresOrThrows : Prop :=
  ∀ disk n, untarOnWrite d outcome filename data = (disk, .ok n) →
    disk.readfile filename = d.readfile filename ++ data

omit [DecidableEq ι] in
theorem readfile_unopened (unopened : d.opens filename = none) : d.readfile filename = [] := by
  rw [Disk.readfile, unopened]
  rfl

theorem append_nil : d.append filename [] = d := by
  rw [Disk.append]
  split
  · rfl
  next i file =>
    rw [List.append_nil]
    congr 1
    funext j
    split
    next same => rw [same]
    · rfl

/-- Writing to one file makes no file shorter. -/
theorem readfile_append_any (other : Bytes) :
    ∃ more, (d.append filename data).readfile other = d.readfile other ++ more := by
  rw [Disk.append]
  split
  · exact ⟨[], by simp⟩
  next i file =>
    cases led : d.opens other with
    | none => exact ⟨[], by simp [Disk.readfile, led]⟩
    | some j =>
      by_cases same : j = i
      · exact ⟨data, by simp [Disk.readfile, led, same]⟩
      · exact ⟨[], by simp [Disk.readfile, led, same]⟩

/-- The bytes that an open file receives. -/
def WriteOutcome.received (data : Bytes) : WriteOutcome → Bytes
  | .openFails => []
  | .stored => data
  | .writeFails taken | .flushFails taken => data.take taken

theorem writefile_disk :
    (writefile d outcome filename data).1 = d.append filename (outcome.received data) := by
  cases file : d.opens filename with
  | none => simp [writefile, file, Disk.append]
  | some i => cases outcome <;> simp [writefile, file, WriteOutcome.received, append_nil]

/-- Only a failed `write` is noticed. -/
theorem writefile_true_iff : (writefile d outcome filename data).2 = true ↔
    d.opens filename = none ∨ ∀ taken, outcome ≠ .writeFails taken := by
  cases file : d.opens filename with
  | none => simp [writefile, file]
  | some i => cases outcome <;> simp [writefile, file]

theorem untarOnWrite_disk :
    (untarOnWrite d outcome filename data).1 = d.append filename (outcome.received data) :=
  writefile_disk d outcome filename data

theorem untarOnWrite_grows (other : Bytes) :
    ∃ more, (untarOnWrite d outcome filename data).1.readfile other = d.readfile other ++ more := by
  rw [untarOnWrite_disk]
  exact readfile_append_any d filename _ other

theorem untarOnWrite_ok_iff (disk : Disk ι) (n : Nat) :
    untarOnWrite d outcome filename data = (disk, .ok n) ↔
      disk = d.append filename (outcome.received data) ∧ n = data.length ∧
        (d.opens filename = none ∨ ∀ taken, outcome ≠ .writeFails taken) := by
  rw [← writefile_true_iff d outcome filename data, ← writefile_disk, untarOnWrite]
  cases written : (writefile d outcome filename data).2 with
  | true => simp [eq_comm]
  | false => simp

theorem storesOrThrows_iff : StoresOrThrows d outcome filename data ↔
    ¬ SilentFailure d outcome filename data := by
  have stores : StoresOrThrows d outcome filename data ↔
      ((d.opens filename = none ∨ ∀ taken, outcome ≠ .writeFails taken) →
        (d.append filename (outcome.received data)).readfile filename =
          d.readfile filename ++ data) := by
    constructor
    · intro stores normal
      exact stores _ _ ((untarOnWrite_ok_iff d outcome filename data _ _).mpr ⟨rfl, rfl, normal⟩)
    · intro stores disk n wrote
      obtain ⟨rfl, _, normal⟩ := (untarOnWrite_ok_iff d outcome filename data disk n).mp wrote
      exact stores normal
  rw [stores, SilentFailure]
  cases file : d.opens filename with
  | none =>
    -- no file is there, before and afterwards
    rw [readfile_unopened _ _ (by rw [Disk.append_opens, file]), readfile_unopened d filename file]
    simp [eq_comm]
  | some i =>
    rw [d.readfile_append filename _ (by rw [file]; rfl), List.append_right_inj]
    cases outcome with
    | openFails => simp [WriteOutcome.received, eq_comm]
    | stored => simp [WriteOutcome.received]
    | writeFails taken => simp
    | flushFails taken =>
      have kept : data.take taken = data ↔ data.length ≤ taken := List.take_eq_self_iff data
      simp only [WriteOutcome.received, kept]
      by_cases empty : data = []
      · simp [empty]
      · simp [empty]

end Disk

/-! ### What is bound -/

namespace MailboxDumpStream

variable {ι : Type} [DecidableEq ι] (digest : Bytes → Bytes) (uninit : Int)

/-- A call of `on_write`, with what the file system does. -/
abbrev Attempt := WriteCall × WriteOutcome

def onWriteStep (s : MailboxDumpStream ι) (a : Attempt) : Option (MailboxDumpStream ι) :=
  onWrite digest uninit s a.1 a.2

def Stores (s : MailboxDumpStream ι) (a : Attempt) : Prop :=
  StoresOrThrows s.disk a.2 (s.dataDirectory ++ a.1.info.name) a.1.content

def Unnoticed (s : MailboxDumpStream ι) (a : Attempt) : Prop :=
  SilentFailure s.disk a.2 (s.dataDirectory ++ a.1.info.name) a.1.content

omit [DecidableEq ι] in
/-- Every entry that is bound to a file is bound to one of the archive that has its digest, and the
file on the disk holds the whole content. -/
def BoundWhole (archive : List (Bytes × Bytes)) (s : MailboxDumpStream ι) : Prop :=
  ∀ e ∈ s.mailbox, e.mail.filename ≠ [] → ∃ name content, (name, content) ∈ archive ∧
    e.mail.filename = s.dataDirectory ++ name ∧
    e.metafile.getValue (ascii "blob_digest") = digest content ∧
    content <:+: s.disk.readfile e.mail.filename

/-- Before these calls: the bytes fed to the digest are those of the file that is begun, and the
last ones of the file on the disk. -/
def Pending (archive : List (Bytes × Bytes)) (s : MailboxDumpStream ι) (calls : List WriteCall) :
    Prop :=
  (∃ files, archive = files ++ groupCalls calls ∧ s.msgDigest = []) ∨
    ∃ files name, archive = files ++ continueGroup name s.msgDigest (groupCalls calls) ∧
      (∀ call, calls.head? = some call → call.info.name = name) ∧
      s.msgDigest <:+ s.disk.readfile (s.dataDirectory ++ name)

omit [DecidableEq ι] in
theorem Pending.cons {archive : List (Bytes × Bytes)} {s : MailboxDumpStream ι} {call : WriteCall}
    {calls : List WriteCall} (pending : Pending archive s (call :: calls)) :
    s.msgDigest <:+ s.disk.readfile (s.dataDirectory ++ call.info.name) ∧
      ∃ files, archive = files ++
        if call.isLast then (call.info.name, s.msgDigest ++ call.content) :: groupCalls calls
        else continueGroup call.info.name (s.msgDigest ++ call.content) (groupCalls calls) := by
  rcases pending with ⟨files, rfl, clear⟩ | ⟨files, name, rfl, first, suffix⟩
  · rw [clear]
    refine ⟨List.nil_suffix, files, ?_⟩
    cases last : call.isLast with
    | true => rw [groupCalls_last call calls last]; rfl
    | false => rw [groupCalls_notLast call calls last]; rfl
  · obtain rfl : call.info.name = name := first call rfl
    refine ⟨suffix, files, ?_⟩
    cases last : call.isLast with
    | true => rw [groupCalls_last call calls last]; rfl
    | false => rw [groupCalls_notLast call calls last, continueGroup_continueGroup]; rfl

omit [DecidableEq ι] in
theorem fileDownloaded_spec {s t : MailboxDumpStream ι} {name : Bytes}
    (done : s.fileDownloaded digest uninit name = some t) :
    t.disk = s.disk ∧ t.dataDirectory = s.dataDirectory ∧ t.msgDigest = [] ∧
      ∀ e ∈ t.mailbox, e ∈ s.mailbox ∨ e.mail.filename = [] ∨
        e.mail.filename = s.dataDirectory ++ name ∧
          e.metafile.getValue (ascii "blob_digest") = digest s.msgDigest := by
  rw [fileDownloaded] at done
  obtain ⟨_, done⟩ := Option.ite_none_left_eq_some.mp done
  split at done
  · -- a metadata file makes an entry that has no file yet
    obtain ⟨loaded, _, rfl⟩ := Option.map_eq_some_iff.mp done
    refine ⟨rfl, rfl, rfl, fun e member => ?_⟩
    rcases List.mem_append.mp member with old | new
    · exact .inl old
    · rw [List.mem_singleton.mp new]
      exact .inr (.inl rfl)
  · -- any other file goes to the last entry, if its digest is the one asked for
    obtain ⟨last, found, rfl⟩ := Option.map_eq_some_iff.mp done
    refine ⟨rfl, rfl, rfl, fun e member => ?_⟩
    simp only at member
    split at member
    next asked =>
      rcases List.mem_append.mp member with old | new
      · exact .inl (List.mem_of_mem_dropLast old)
      · rw [List.mem_singleton.mp new]
        exact .inr (.inr ⟨rfl, asked⟩)
    · exact .inl member

/-- A call that stores its block: the entries stay bound to whole files, and what is pending goes
on. -/
theorem onWrite_boundWhole (archive : List (Bytes × Bytes)) (s t : MailboxDumpStream ι)
    (call : WriteCall) (outcome : WriteOutcome) (calls : List WriteCall)
    (stores : Stores s (call, outcome)) (chain : (call :: calls).IsChain SameFile)
    (bound : BoundWhole digest archive s) (pending : Pending archive s (call :: calls))
    (done : onWrite digest uninit s call outcome = some t) :
    BoundWhole digest archive t ∧ Pending archive t calls := by
  obtain ⟨suffix, files, whole⟩ := pending.cons
  rw [onWrite] at done
  generalize wrote : untarOnWrite s.disk outcome (s.dataDirectory ++ call.info.name) call.content =
    result at done
  obtain ⟨disk, _ | n⟩ := result
  · simp at done
  have stored : disk.readfile (s.dataDirectory ++ call.info.name) =
      s.disk.readfile (s.dataDirectory ++ call.info.name) ++ call.content := stores disk n wrote
  -- what was pending is now the end of the file, together with the block
  have suffix' : s.msgDigest ++ call.content <:+
      disk.readfile (s.dataDirectory ++ call.info.name) := by
    obtain ⟨front, same⟩ := suffix
    exact ⟨front, by rw [stored, ← same, List.append_assoc]⟩
  have grows (other : Bytes) : ∃ more, disk.readfile other = s.disk.readfile other ++ more := by
    have grown := untarOnWrite_grows s.disk outcome (s.dataDirectory ++ call.info.name) call.content
      other
    rwa [wrote] at grown
  -- entries that were bound stay so, as no file loses anything
  have kept (e : MailboxEntry) (member : e ∈ s.mailbox) (some_ : e.mail.filename ≠ []) :
      ∃ name content, (name, content) ∈ archive ∧ e.mail.filename = s.dataDirectory ++ name ∧
        e.metafile.getValue (ascii "blob_digest") = digest content ∧
        content <:+: disk.readfile e.mail.filename := by
    obtain ⟨name, content, entry, path, asked, inside⟩ := bound e member some_
    obtain ⟨more, grown⟩ := grows e.mail.filename
    exact ⟨name, content, entry, path, asked, grown ▸ inside.trans (List.prefix_append _ _).isInfix⟩
  simp only at done
  split at done
  next last =>
    have isLast : call.isLast = true := by rw [WriteCall.isLast, decide_eq_true_eq, last]
    obtain ⟨sameDisk, sameDir, clear, entries⟩ := fileDownloaded_spec digest uninit done
    simp only [isLast, if_true] at whole
    constructor
    · intro e member some_
      rw [sameDisk, sameDir]
      rcases entries e member with old | none_ | ⟨path, asked⟩
      · exact kept e old some_
      · exact absurd none_ some_
      · exact ⟨call.info.name, s.msgDigest ++ call.content, by rw [whole]; simp, path, asked,
          path ▸ suffix'.isInfix⟩
    · exact .inl ⟨files ++ [(call.info.name, s.msgDigest ++ call.content)],
        by rw [whole]; simp, clear⟩
  next more =>
    have notLast : call.isLast = false := by
      rw [WriteCall.isLast, decide_eq_false_iff_not]
      exact fun same => more same.symm
    rw [← Option.some.inj done]
    simp only [notLast, Bool.false_eq_true, if_false] at whole
    refine ⟨kept, .inr ⟨files, call.info.name, whole, fun next first => ?_, suffix'⟩⟩
    exact (List.isChain_cons.mp chain).1 next first notLast

theorem throughout_boundWhole (archive : List (Bytes × Bytes)) (attempts : List Attempt)
    (s : MailboxDumpStream ι)
    (stores : Transition.EachTry (onWriteStep digest uninit) Stores s attempts)
    (chain : (attempts.map Prod.fst).IsChain SameFile) (bound : BoundWhole digest archive s)
    (pending : Pending archive s (attempts.map Prod.fst)) :
    Transition.Throughout (onWriteStep digest uninit) (BoundWhole digest archive) s attempts := by
  induction attempts generalizing s with
  | nil => exact bound
  | cons a attempts ih =>
    refine ⟨bound, ?_⟩
    cases next : onWriteStep digest uninit s a with
    | none => trivial
    | some t =>
      obtain ⟨bound', pending'⟩ := onWrite_boundWhole digest uninit archive s t a.1 a.2
        (attempts.map Prod.fst) stores.1 chain bound pending next
      exact ih t (stores.next next) chain.tail bound' pending'

end MailboxDumpStream

open MailboxDumpStream in
/-- A dump of an archive, however its bytes arrive and whatever the file system does: each block is
stored or the exception is thrown, and no entry is ever bound to a file that lacks some of its mail,
exactly when no failure goes unnoticed. -/
theorem dump_stores_iff {ι : Type} [DecidableEq ι] (digest : Bytes → Bytes) (uninit : Int)
    (folderRenamePrefix : Bytes) (pieces : List Bytes) (disk : Disk ι) (dataDirectory : Bytes)
    (outcome : Nat → WriteOutcome) :
    let calls := (UntarStream.feedAll ZimbraUntarStream.setTarInfo
      (ZimbraUntarStream.init folderRenamePrefix, []) pieces).2
    let attempts := calls.mapIdx fun i call => (call, outcome i)
    let start : MailboxDumpStream ι := ⟨disk, dataDirectory, [], []⟩
    Transition.EachTry (onWriteStep digest uninit) Stores start attempts ∧
        Transition.Throughout (onWriteStep digest uninit)
        (BoundWhole digest (groupCalls calls)) start
          attempts ↔
      Transition.EachTry (onWriteStep digest uninit) (fun s a => ¬ Unnoticed s a) start
        attempts := by
  intro calls attempts start
  have same : Transition.EachTry (onWriteStep digest uninit) Stores start attempts ↔
      Transition.EachTry (onWriteStep digest uninit) (fun s a => ¬ Unnoticed s a) start attempts :=
    Transition.eachTry_congr (fun s a => storesOrThrows_iff s.disk a.2
      (s.dataDirectory ++ a.1.info.name) a.1.content) start attempts
  -- the calls do not depend on what becomes of the writes
  have these : attempts.map Prod.fst = calls := by
    apply List.ext_getElem
    · simp [attempts]
    · intro i _ _
      simp [attempts]
  constructor
  · intro all
    exact same.mp all.1
  · intro noticed
    refine ⟨same.mpr noticed, ?_⟩
    apply throughout_boundWhole digest uninit (groupCalls calls) attempts start (same.mpr noticed)
    · rw [these]
      exact UntarStream.feedAll_sameFile ZimbraUntarStream.setTarInfo _ pieces
    · simp [BoundWhole, start]
    · rw [these]
      exact .inl ⟨[], rfl, rfl⟩

/-- A mail and its meta file, with the digest that SHA-1 gives for the mail. -/
def oneMail : Bytes :=
  encodeArchive
    [⟨ascii "/Inbox/1.meta",
        ascii ("\x7b\"id\":1,\"blob_digest\":\"Ny6gjKsz5xwCxlHbyDpHTTLGduo=\"\x7d\n"), .blank,
        by decide, by decide, by decide⟩,
      ⟨ascii "/Inbox/1.eml", ascii "text", .blank, by decide, by decide, by decide⟩]

/-- The digests of a mail that is `text` and of an empty one. -/
def oneMailDigest (mail : Bytes) : Bytes :=
  if mail = ascii "text" then ascii "Ny6gjKsz5xwCxlHbyDpHTTLGduo="
  else ascii "2jmj7l5rSw0yVb,vlWAYkK,YBwk="

open MailboxDumpStream in
/-- Opening the file of the mail fails, and its entry is bound to a file that is not there. -/
theorem dump_unopened :
    let calls := (UntarStream.feedAll ZimbraUntarStream.setTarInfo
      (ZimbraUntarStream.init (ascii "D"), []) [oneMail]).2
    let attempts := calls.mapIdx fun i call => (call, [.stored, .openFails].getD i .stored)
    let start : MailboxDumpStream Bytes := ⟨⟨some, fun _ => []⟩, ascii "dir/", [], []⟩
    ¬ (Transition.EachTry (onWriteStep oneMailDigest 0) Stores start attempts ∧
      Transition.Throughout (onWriteStep oneMailDigest 0)
      (BoundWhole oneMailDigest (groupCalls calls))
        start attempts) := by
  intro calls attempts start both
  have ends : (attempts.foldlM (onWriteStep oneMailDigest 0) start).map
    (fun s => s.mailbox.map fun e =>
      (e.mail.filename, e.metafile.getValue (ascii "blob_digest"),
        s.disk.readfile e.mail.filename)) =
        some [(ascii "dir/D1/D2/1.eml", ascii "Ny6gjKsz5xwCxlHbyDpHTTLGduo=", [])] := by
    decide +kernel
  clear_value attempts
  obtain ⟨s, run, mails⟩ := Option.map_eq_some_iff.mp ends
  obtain ⟨e, one, found⟩ := List.map_eq_singleton_iff.mp mails
  simp only [Prod.mk.injEq] at found
  have bound := both.2.reached run e (by rw [one]; simp) (by rw [found.1]; decide)
  obtain ⟨_, content, _, _, asked, inside⟩ := bound
  -- nothing is in the file, but nothing has another digest
  rw [found.2.2, List.infix_nil] at inside
  rw [found.2.1, inside] at asked
  revert asked
  decide

end Zn
