import MyStudy.Zn.MailboxDump

/-!
# The mailbox of a list of files

What a dump is for: every meta file becomes an entry, and among the files that follow it up to the
next meta file the last one with the right digest becomes its mail. The stream gets there as long
as a meta file reads back from the disk as it was delivered: with the same value for every key.
-/
namespace Zn

/-- A file as `feed` delivers it. -/
structure DumpFile where
  name : Bytes
  content : Bytes
  mtime : Nat
  gname : Bytes
  deriving DecidableEq

namespace DumpFile

def info (f : DumpFile) : TarInfo := ⟨f.name, f.content.length, f.content.length, f.mtime, f.gname⟩

def calls (f : DumpFile) : List WriteCall := contentCalls f.info f.content

def isMeta (f : DumpFile) : Bool := f.name.drop (f.name.length - metaSuffix.length) = metaSuffix

end DumpFile

/-! ### The abstract mailbox -/

section Expected

variable (digest : Bytes → Bytes) (uninit : Int) (dir : Bytes)

/-- What `load_meta` makes of a text, if it does not throw. -/
def loadedMeta (content : Bytes) : Option Metafile :=
  (Metafile.loadMeta uninit .init content).map Prod.fst

/-- Every meta file with the files after it up to the next meta file. -/
def metaGroups : List DumpFile → List (DumpFile × List DumpFile)
  | [] => []
  | f :: files =>
    if f.isMeta then (f, files.takeWhile (!·.isMeta)) :: metaGroups files else metaGroups files

/-- The file's digest is the one the entry asks for. -/
def MailboxEntry.asksFor (e : MailboxEntry) (f : DumpFile) : Bool :=
  e.metafile.getValue (ascii "blob_digest") = digest f.content

/-- An entry bound to the last of the files that it asks for. -/
def MailboxEntry.boundTo (e : MailboxEntry) (files : List DumpFile) : MailboxEntry :=
  match (files.filter (e.asksFor digest)).getLast? with
  | some f => { e with mail := ⟨dir ++ f.name⟩ }
  | none => e

def expectedEntry (group : DumpFile × List DumpFile) : Option MailboxEntry :=
  (loadedMeta uninit group.1.content).map fun loaded =>
    (MailboxEntry.ofMeta loaded).boundTo digest dir group.2

/-- The mailbox a list of files stands for. -/
def expectedMailbox (files : List DumpFile) : Option (List MailboxEntry) :=
  (metaGroups files).mapM (expectedEntry digest uninit dir)

end Expected

theorem MailboxEntry.boundTo_nil (digest : Bytes → Bytes) (dir : Bytes) (e : MailboxEntry) :
    e.boundTo digest dir [] = e := rfl

theorem MailboxEntry.boundTo_cons (digest : Bytes → Bytes) (dir : Bytes) (e : MailboxEntry)
    (f : DumpFile) (files : List DumpFile) :
    e.boundTo digest dir (f :: files) =
      (if e.asksFor digest f then { e with mail := ⟨dir ++ f.name⟩ } else e).boundTo digest dir
        files := by
  cases asks : e.asksFor digest f with
  | false => simp [boundTo, asks]
  | true =>
    -- binding a file leaves the meta alone, so the entry asks for the same files as before
    have same : ({ e with mail := ⟨dir ++ f.name⟩ } : MailboxEntry).asksFor digest =
        e.asksFor digest := rfl
    rw [boundTo, boundTo, if_pos rfl, same, List.filter_cons_of_pos asks, List.getLast?_cons]
    cases (files.filter (e.asksFor digest)).getLast? with
    | none => rfl
    | some g => rfl

theorem MailboxEntry.boundTo_metafile (digest : Bytes → Bytes) (dir : Bytes) (e : MailboxEntry)
    (files : List DumpFile) : (e.boundTo digest dir files).metafile = e.metafile := by
  rw [boundTo]
  split <;> rfl

/-! ### Entries with the same meta -/

namespace MailboxEntry

/-- The same entry: its meta is taken as a map. -/
structure Same (e e' : MailboxEntry) : Prop where
  metafile : e.metafile.Same e'.metafile
  mail : e.mail = e'.mail
  avaliable : e.avaliable = e'.avaliable

theorem Same.refl (e : MailboxEntry) : Same e e := ⟨.refl _, rfl, rfl⟩

theorem Same.trans {e e' e'' : MailboxEntry} (same : Same e e') (same' : Same e' e'') :
    Same e e'' :=
  ⟨same.metafile.trans same'.metafile, same.mail.trans same'.mail,
    same.avaliable.trans same'.avaliable⟩

theorem Same.asksFor {e e' : MailboxEntry} (same : Same e e') (digest : Bytes → Bytes) :
    e.asksFor digest = e'.asksFor digest := by
  funext f
  rw [MailboxEntry.asksFor, MailboxEntry.asksFor, same.metafile.getValue]

theorem Same.boundTo {e e' : MailboxEntry} (same : Same e e') (digest : Bytes → Bytes) (dir : Bytes)
    (files : List DumpFile) : Same (e.boundTo digest dir files) (e'.boundTo digest dir files) := by
  rw [MailboxEntry.boundTo, MailboxEntry.boundTo, same.asksFor digest]
  split
  · exact ⟨same.metafile, rfl, same.avaliable⟩
  · exact same

end MailboxEntry

/-- The same mailbox, entry by entry. -/
def SameMailbox : List MailboxEntry → List MailboxEntry → Prop := List.Forall₂ MailboxEntry.Same

theorem SameMailbox.refl (mailbox : List MailboxEntry) : SameMailbox mailbox mailbox :=
  List.forall₂_same.mpr fun e _ => .refl e

theorem SameMailbox.trans {mailbox mailbox' mailbox'' : List MailboxEntry}
    (same : SameMailbox mailbox mailbox') (same' : SameMailbox mailbox' mailbox'') :
    SameMailbox mailbox mailbox'' := by
  induction same generalizing mailbox'' with
  | nil => exact same'
  | cons first _ ih =>
    cases same' with
    | cons first' rest' => exact .cons (first.trans first') (ih rest')

/-- Of two mailboxes that are the same the entries in one place are. -/
theorem SameMailbox.middle {front more more' : List MailboxEntry} {e e' : MailboxEntry}
    (same : SameMailbox (front ++ e :: more) (front ++ e' :: more')) : e.Same e' := by
  induction front with
  | nil =>
    cases same with
    | cons first _ => exact first
  | cons _ front ih =>
    cases same with
    | cons _ rest => exact ih rest

theorem SameMailbox.of_middle (front more : List MailboxEntry) {e e' : MailboxEntry}
    (same : e.Same e') :
    SameMailbox (front ++ e :: more) (front ++ e' :: more) := by
  induction front with
  | nil => exact .cons same (SameMailbox.refl more)
  | cons e front ih => exact .cons (.refl e) ih

variable {ι : Type} [DecidableEq ι] (digest : Bytes → Bytes) (uninit : Int)

/-- Every meta file loads, and loads alike from its own content and from the disk: from what is
there before it, followed by its content. -/
def metasReadBack (d : Disk ι) (dir : Bytes) : List DumpFile → Prop
  | [] => True
  | f :: files =>
    (f.isMeta = true → ∃ loaded stored, loadedMeta uninit f.content = some loaded ∧
      loadedMeta uninit (d.readfile (dir ++ f.name) ++ f.content) = some stored ∧
      loaded.Same stored) ∧
    metasReadBack (d.append (dir ++ f.name) f.content) dir files

namespace MailboxDumpStream

/-- A file delivered as a whole. -/
def deliver (s : MailboxDumpStream ι) (f : DumpFile) : Option (MailboxDumpStream ι) :=
  onWriteAll digest uninit s f.calls

theorem onWriteAll_files (files : List DumpFile) (s : MailboxDumpStream ι) :
    onWriteAll digest uninit s (files.flatMap DumpFile.calls) =
      files.foldlM (deliver digest uninit) s := by
  induction files generalizing s with
  | nil => rfl
  | cons f files ih =>
    rw [List.flatMap_cons, onWriteAll, List.foldlM_append, List.foldlM_cons]
    congr 1
    funext s'
    exact ih s'

/-- Delivering a meta file adds an entry with what the disk then holds. -/
theorem deliver_meta (s : MailboxDumpStream ι) (f : DumpFile) (isMeta : f.isMeta = true)
    (long : metaSuffix.length ≤ f.name.length)
    (opens : (s.disk.opens (s.dataDirectory ++ f.name)).isSome) :
    deliver digest uninit s f =
      (loadedMeta uninit (s.disk.readfile (s.dataDirectory ++ f.name) ++ f.content)).map
        fun loaded =>
          { s with
            disk := s.disk.append (s.dataDirectory ++ f.name) f.content
            mailbox := s.mailbox ++ [.ofMeta loaded]
            msgDigest := [] } := by
  have notShort : ¬ f.name.length < metaSuffix.length := Nat.not_lt.mpr long
  have suffix : f.name.drop (f.name.length - metaSuffix.length) = metaSuffix := by
    simpa [DumpFile.isMeta] using isMeta
  have info : f.info.name = f.name := rfl
  rw [deliver, DumpFile.calls, onWriteAll_contentCalls, info, fileDownloaded]
  simp only [notShort, suffix, if_false, if_true, loadedMeta, Option.map_map,
    s.disk.readfile_append _ _ opens]
  rfl

/-- Delivering another file binds the last entry to it if the entry asks for it. -/
theorem deliver_other (s : MailboxDumpStream ι) (f : DumpFile) (other : f.isMeta = false)
    (long : metaSuffix.length ≤ f.name.length) (clear : s.msgDigest = [])
    (front : List MailboxEntry) (e : MailboxEntry) (last : s.mailbox = front ++ [e]) :
    deliver digest uninit s f = some
      { s with
        disk := s.disk.append (s.dataDirectory ++ f.name) f.content
        mailbox := front ++ [if e.asksFor digest f then
          { e with mail := ⟨s.dataDirectory ++ f.name⟩ } else e]
        msgDigest := [] } := by
  have notShort : ¬ f.name.length < metaSuffix.length := Nat.not_lt.mpr long
  have suffix : f.name.drop (f.name.length - metaSuffix.length) ≠ metaSuffix := by
    simpa [DumpFile.isMeta] using other
  have info : f.info.name = f.name := rfl
  rw [deliver, DumpFile.calls, onWriteAll_contentCalls, info, fileDownloaded]
  simp only [notShort, suffix, if_false, last, List.getLast?_concat, Option.map_some, clear,
    List.nil_append, List.dropLast_concat, MailboxEntry.asksFor, decide_eq_true_eq]
  split <;> rfl

/-- Whole files delivered to a stream, every one under a name that can be opened. -/
structure Deliverable (s : MailboxDumpStream ι) (files : List DumpFile) : Prop where
  clear : s.msgDigest = []
  long : ∀ f ∈ files, metaSuffix.length ≤ f.name.length
  opens : ∀ f ∈ files, (s.disk.opens (s.dataDirectory ++ f.name)).isSome

theorem Deliverable.next {s : MailboxDumpStream ι} {f : DumpFile} {files : List DumpFile}
    (ok : Deliverable s (f :: files)) (mailbox : List MailboxEntry) :
    Deliverable
      { s with
        disk := s.disk.append (s.dataDirectory ++ f.name) f.content
        mailbox := mailbox
        msgDigest := [] } files where
  clear := rfl
  long := fun g member => ok.long g (List.mem_cons_of_mem f member)
  opens := fun g member => by
    rw [Disk.append_opens]
    exact ok.opens g (List.mem_cons_of_mem f member)

/-- Delivering files leaves the entries before the last one alone, and the meta of that one. -/
theorem deliver_keeps (files : List DumpFile) (s s' : MailboxDumpStream ι)
    (ok : Deliverable s files) (front : List MailboxEntry) (e : MailboxEntry)
    (last : s.mailbox = front ++ [e]) (done : files.foldlM (deliver digest uninit) s = some s') :
    ∃ e' more, s'.mailbox = front ++ e' :: more ∧ e'.metafile = e.metafile := by
  induction files generalizing s front e with
  | nil =>
    rw [List.foldlM_nil] at done
    rw [← Option.some.inj done]
    exact ⟨e, [], last, rfl⟩
  | cons f files ih =>
    rw [List.foldlM_cons] at done
    cases isMeta : f.isMeta with
    | true =>
      rw [deliver_meta digest uninit s f isMeta (ok.long f List.mem_cons_self)
        (ok.opens f List.mem_cons_self)] at done
      -- a new entry goes behind this one
      cases loaded : loadedMeta uninit
          (s.disk.readfile (s.dataDirectory ++ f.name) ++ f.content) with
      | none => rw [loaded] at done; simp at done
      | some m =>
        rw [loaded] at done
        obtain ⟨e', more, mailbox, _⟩ := ih _ (ok.next _) _ _ rfl done
        exact ⟨e, e' :: more, by rw [mailbox, last]; simp, rfl⟩
    | false =>
      rw [deliver_other digest uninit s f isMeta (ok.long f List.mem_cons_self) ok.clear front e
        last] at done
      -- this one is the last, and only its file can change
      obtain ⟨e', more, mailbox, same⟩ := ih _ (ok.next _) front _ rfl done
      refine ⟨e', more, mailbox, same.trans ?_⟩
      split <;> rfl

/-- The files make a stream with this mailbox. -/
def DumpsTo (s : MailboxDumpStream ι) (files : List DumpFile) (mailbox : List MailboxEntry) :
    Prop :=
  ∃ s', files.foldlM (deliver digest uninit) s = some s' ∧ SameMailbox s'.mailbox mailbox

theorem DumpsTo.congr {s : MailboxDumpStream ι} {files : List DumpFile}
    {mailbox mailbox' : List MailboxEntry} (dumped : DumpsTo digest uninit s files mailbox)
    (same : SameMailbox mailbox mailbox') : DumpsTo digest uninit s files mailbox' := by
  obtain ⟨s', done, made⟩ := dumped
  exact ⟨s', done, made.trans same⟩

/-- The mailbox of files with a meta file in front: its entry, bound to the files up to the next
one, and then the entries of the files after it. -/
theorem expectedMailbox_meta (dataDirectory : Bytes) (f : DumpFile) (files : List DumpFile)
    (isMeta : f.isMeta = true) :
    expectedMailbox digest uninit dataDirectory (f :: files) =
      (loadedMeta uninit f.content).bind fun loaded =>
        (expectedMailbox digest uninit dataDirectory files).map fun more =>
          (MailboxEntry.ofMeta loaded).boundTo digest dataDirectory
            (files.takeWhile (!·.isMeta)) :: more := by
  rw [expectedMailbox, metaGroups, if_pos isMeta, List.mapM_cons, expectedEntry]
  cases loadedMeta uninit f.content with
  | none => rfl
  | some m =>
    rw [expectedMailbox]
    cases (metaGroups files).mapM (expectedEntry digest uninit dataDirectory) <;> rfl

/-- In whatever mailbox files make, the entry they began with keeps its meta. -/
theorem DumpsTo.metafile_same {s : MailboxDumpStream ι} {files : List DumpFile}
    {front more : List MailboxEntry} {e e' : MailboxEntry} (ok : Deliverable s files)
    (last : s.mailbox = front ++ [e])
    (dumped : DumpsTo digest uninit s files (front ++ e' :: more)) :
    e'.metafile.Same e.metafile := by
  obtain ⟨s', done, mailbox⟩ := dumped
  obtain ⟨e'', more', mailbox', kept⟩ := deliver_keeps digest uninit files s s' ok front e last done
  rw [mailbox'] at mailbox
  have entry := mailbox.middle.metafile
  rw [kept] at entry
  exact entry.symm

/-- A meta file in front, given what holds of the files after it. -/
theorem dumpsTo_meta (f : DumpFile) (files : List DumpFile) (s : MailboxDumpStream ι)
    (ok : Deliverable s (f :: files)) (isMeta : f.isMeta = true)
    (rest : ∀ (s : MailboxDumpStream ι), Deliverable s files → ∀ front e,
      s.mailbox = front ++ [e] →
      ((∃ more, expectedMailbox digest uninit s.dataDirectory files = some more ∧
          DumpsTo digest uninit s files (front ++ e.boundTo digest s.dataDirectory
            (files.takeWhile (!·.isMeta)) :: more)) ↔
        metasReadBack uninit s.disk s.dataDirectory files)) :
    (∃ entries, expectedMailbox digest uninit s.dataDirectory (f :: files) = some entries ∧
        DumpsTo digest uninit s (f :: files) (s.mailbox ++ entries)) ↔
      metasReadBack uninit s.disk s.dataDirectory (f :: files) := by
  -- what the stream makes of the file depends on the disk, what it should make on the content
  have step := deliver_meta digest uninit s f isMeta (ok.long f List.mem_cons_self)
    (ok.opens f List.mem_cons_self)
  have entries := expectedMailbox_meta digest uninit s.dataDirectory f files isMeta
  cases loaded : loadedMeta uninit f.content with
  | none =>
    -- the content does not load, so that there is no mailbox to compare with
    rw [loaded] at entries
    rw [entries, metasReadBack, loaded]
    simp [isMeta]
  | some m =>
    rw [loaded] at entries
    cases disked : loadedMeta uninit
        (s.disk.readfile (s.dataDirectory ++ f.name) ++ f.content) with
    | none =>
      -- the stream throws
      rw [disked] at step
      rw [metasReadBack, disked]
      simp [DumpsTo, List.foldlM_cons, step, isMeta]
    | some m' =>
      rw [disked] at step
      have next := ok.next (s.mailbox ++ [.ofMeta m'])
      have dumps (X : List MailboxEntry) : DumpsTo digest uninit s (f :: files) X ↔
          DumpsTo digest uninit
            { s with
              disk := s.disk.append (s.dataDirectory ++ f.name) f.content
              mailbox := s.mailbox ++ [.ofMeta m']
              msgDigest := [] } files X := by
        rw [DumpsTo, List.foldlM_cons, step]
        rfl
      have reads : metasReadBack uninit s.disk s.dataDirectory (f :: files) ↔
          m.Same m' ∧ metasReadBack uninit (s.disk.append (s.dataDirectory ++ f.name) f.content)
            s.dataDirectory files := by
        rw [metasReadBack, loaded, disked]
        simp [isMeta]
      rw [reads, entries]
      -- binding does not tell an entry from one with the same meta
      have bound {m₁ m₂ : Metafile} (same : m₁.Same m₂) (files' : List DumpFile)
          (more : List MailboxEntry) :
          SameMailbox
            (s.mailbox ++ (MailboxEntry.ofMeta m₁).boundTo digest s.dataDirectory files' :: more)
            (s.mailbox ++ (MailboxEntry.ofMeta m₂).boundTo digest s.dataDirectory files' :: more) :=
        .of_middle _ _
          ((show MailboxEntry.Same (.ofMeta m₁) (.ofMeta m₂) from ⟨same, rfl, rfl⟩).boundTo
          digest _ files')
      constructor
      · rintro ⟨all, whole, dumped⟩
        obtain ⟨more, found, rfl⟩ := Option.map_eq_some_iff.mp whole
        rw [dumps] at dumped
        -- the entry the stream made keeps the meta it read from the disk
        have same : m.Same m' := by
          have kept := dumped.metafile_same digest uninit next rfl
          rw [MailboxEntry.boundTo_metafile] at kept
          exact kept
        exact ⟨same, (rest _ next s.mailbox _ rfl).mp
          ⟨more, found, dumped.congr digest uninit (bound same _ more)⟩⟩
      · rintro ⟨same, back⟩
        obtain ⟨more, found, dumped⟩ := (rest _ next s.mailbox _ rfl).mpr back
        have found' : expectedMailbox digest uninit s.dataDirectory files = some more := found
        rw [found']
        exact ⟨_, rfl, (dumps _).mpr (dumped.congr digest uninit (bound same.symm _ more))⟩

/-- The files after an entry: what the mailbox becomes, exactly when the meta files read back. -/
theorem dumpsTo_iff (files : List DumpFile) (s : MailboxDumpStream ι) (ok : Deliverable s files)
    (front : List MailboxEntry) (e : MailboxEntry) (last : s.mailbox = front ++ [e]) :
    (∃ more, expectedMailbox digest uninit s.dataDirectory files = some more ∧
        DumpsTo digest uninit s files (front ++ e.boundTo digest s.dataDirectory
          (files.takeWhile (!·.isMeta)) :: more)) ↔
      metasReadBack uninit s.disk s.dataDirectory files := by
  induction files generalizing s front e with
  | nil =>
    refine iff_of_true ⟨[], rfl, s, rfl, ?_⟩ trivial
    rw [last]
    exact .refl _
  | cons f files ih =>
    cases isMeta : f.isMeta with
    | true =>
      -- the next meta file ends the group of this entry
      rw [← dumpsTo_meta digest uninit f files s ok isMeta ih, last]
      simp only [List.takeWhile_cons, isMeta, Bool.not_true, Bool.false_eq_true, if_false,
        MailboxEntry.boundTo_nil, List.append_assoc, List.singleton_append]
    | false =>
      -- a mail: the entry in front of it may be bound to it
      have step := deliver_other digest uninit s f isMeta (ok.long f List.mem_cons_self) ok.clear
        front e last
      generalize entry : (if e.asksFor digest f then
        { e with mail := ⟨s.dataDirectory ++ f.name⟩ } else e) = e' at step
      have next := ih _ (ok.next (front ++ [e'])) front e' rfl
      have groups : metaGroups (f :: files) = metaGroups files := by
        rw [metaGroups, isMeta, if_neg Bool.false_ne_true]
      have reads : metasReadBack uninit s.disk s.dataDirectory (f :: files) ↔
          metasReadBack uninit (s.disk.append (s.dataDirectory ++ f.name) f.content)
            s.dataDirectory files := by
        rw [metasReadBack]
        simp [isMeta]
      rw [reads, ← next, expectedMailbox, groups]
      simp only [List.takeWhile_cons, isMeta, Bool.not_false, if_true, MailboxEntry.boundTo_cons,
        entry, DumpsTo, List.foldlM_cons, step, Option.bind_eq_bind, Option.bind_some,
        expectedMailbox]

end MailboxDumpStream

open MailboxDumpStream in
/-- A dump makes the mailbox its files stand for exactly when its meta files read back. -/
theorem dump_mailbox_iff_metasReadBack (disk : Disk ι) (dataDirectory : Bytes)
    (files : List DumpFile) (long : ∀ f ∈ files, metaSuffix.length ≤ f.name.length)
    (opens : ∀ f ∈ files, (disk.opens (dataDirectory ++ f.name)).isSome)
    (first : ∀ f, files.head? = some f → f.isMeta = true) :
    (∃ mailbox s, expectedMailbox digest uninit dataDirectory files = some mailbox ∧
        onWriteAll digest uninit ⟨disk, dataDirectory, [], []⟩ (files.flatMap DumpFile.calls) =
          some s ∧ SameMailbox s.mailbox mailbox) ↔
      metasReadBack uninit disk dataDirectory files := by
  rw [onWriteAll_files]
  cases files with
  | nil => exact iff_of_true ⟨[], _, rfl, rfl, .refl []⟩ trivial
  | cons f files =>
    have start := dumpsTo_meta digest uninit f files ⟨disk, dataDirectory, [], []⟩
      ⟨rfl, long, opens⟩ (first f rfl) (dumpsTo_iff digest uninit files)
    rw [← start]
    simp only [DumpsTo, List.nil_append]
    constructor
    · rintro ⟨mailbox, s, expected, done, same⟩
      exact ⟨mailbox, expected, s, done, same⟩
    · rintro ⟨mailbox, expected, s, done, same⟩
      exact ⟨mailbox, s, expected, done, same⟩

/-- A disk where every path is a file of its own and nothing is there yet. -/
def emptyDisk : Disk Bytes := ⟨some, fun _ => []⟩

def metaFile (id : String) : DumpFile :=
  ⟨ascii "mail.meta", ascii ("\x7b\"id\":" ++ id ++ ",\"blob_digest\":\"text\"\x7d\n"), 0, []⟩

def mailFile : DumpFile := ⟨ascii "mail.eml", ascii "text", 0, []⟩

open MailboxDumpStream in
/-- A meta file and its mail, with the content itself as the digest. -/
theorem dump_mailbox_iff_metasReadBack_mail :
    (∃ mailbox s, expectedMailbox id 0 (ascii "dir/") [metaFile "1", mailFile] = some mailbox ∧
        onWriteAll id 0 ⟨emptyDisk, ascii "dir/", [], []⟩
            ([metaFile "1", mailFile].flatMap DumpFile.calls) = some s ∧
            SameMailbox s.mailbox mailbox) ↔
      metasReadBack 0 emptyDisk (ascii "dir/") [metaFile "1", mailFile] :=
  dump_mailbox_iff_metasReadBack id 0 emptyDisk (ascii "dir/") [metaFile "1", mailFile]
    (by decide +kernel) (fun _ _ => rfl) (by rintro f ⟨⟩; decide +kernel)

open MailboxDumpStream in
/-- A name that comes twice: the second entry gets the `id` of the first file. -/
theorem dump_repeats_first_meta :
    (onWriteAll id 0 ⟨emptyDisk, ascii "dir/", [], []⟩
          ([metaFile "1", metaFile "2"].flatMap DumpFile.calls)).map
        (fun s => s.mailbox.map fun e => e.metafile.id) = some [1, 1] ∧
      (expectedMailbox id 0 (ascii "dir/") [metaFile "1", metaFile "2"]).map
        (fun mailbox => mailbox.map fun e => e.metafile.id) = some [1, 2] := by
  decide +kernel

end Zn
