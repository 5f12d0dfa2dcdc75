import MyStudy.Zn.Mailbox
import MyStudy.Zn.Untar

/-!
# Dumping a mailbox

`zn_mailbox_dump_stream::on_write` turns the files of an archive into the entries of a mailbox. It
sees a file in pieces; when the last one is written a meta file becomes an entry, and any other
file becomes the mail of the last entry if its digest is the one the entry asks for.
-/
namespace Zn

/-! ### The calls for one file -/

/-- The calls of `on_write` for an entry with this content: blocks of 512 bytes, and `bytesLeft`
is what is left of the content before the block. -/
def contentCalls (info : TarInfo) (content : Bytes) : List WriteCall :=
  (List.range ((content.length - 1) / tarBlockSize + 1)).map fun i =>
    ⟨{ info with bytesLeft := content.length - i * tarBlockSize },
      (content.drop (i * tarBlockSize)).take tarBlockSize⟩

theorem contentCalls_short (info : TarInfo) (content : Bytes)
    (short : content.length ≤ tarBlockSize) :
    contentCalls info content = [⟨{ info with bytesLeft := content.length }, content⟩] := by
  -- one block, also for an empty content
  have once : (content.length - 1) / tarBlockSize = 0 := by
    rw [tarBlockSize] at short ⊢; omega
  simp [contentCalls, once, List.take_of_length_le short]

theorem contentCalls_long (info : TarInfo) (content : Bytes)
    (long : tarBlockSize < content.length) :
    contentCalls info content =
      ⟨{ info with bytesLeft := content.length }, content.take tarBlockSize⟩ ::
        contentCalls info (content.drop tarBlockSize) := by
  have rounds : (content.length - 1) / tarBlockSize + 1 =
      ((content.drop tarBlockSize).length - 1) / tarBlockSize + 1 + 1 := by
    rw [List.length_drop]; rw [tarBlockSize] at long ⊢; omega
  rw [contentCalls, rounds, List.range_succ_eq_map, List.map_cons, List.map_map, contentCalls]
  simp only [Nat.zero_mul, Nat.sub_zero, List.drop_zero, List.cons.injEq, true_and]
  apply List.map_congr_left
  intro i _
  simp only [Function.comp_apply, List.drop_drop, List.length_drop, Nat.succ_mul, Nat.sub_sub,
    Nat.add_comm]

/-! ### The disk -/

/-- The files of a disk. `opens` says which file a path leads to once `mkpath` has made its
directories, `none` if it cannot be opened. -/
structure Disk (ι : Type) where
  opens : Bytes → Option ι
  content : ι → Bytes

namespace Disk

variable {ι : Type} [DecidableEq ι] (d : Disk ι)

/-- Bytes written to the end of a file, if the path can be opened. -/
def append (filename data : Bytes) : Disk ι :=
  match d.opens filename with
  | none => d
  | some i => { d with content := fun j => if j = i then d.content i ++ data else d.content j }

omit [DecidableEq ι] in
def readfile (filename : Bytes) : Bytes := ((d.opens filename).map d.content).getD []

theorem append_append (filename data more : Bytes) :
    (d.append filename data).append filename more = d.append filename (data ++ more) := by
  cases file : d.opens filename with
  | none => simp [append, file]
  | some i =>
    simp only [append, file, if_true, List.append_assoc, Disk.mk.injEq, true_and]
    funext j
    split <;> rfl

@[simp] theorem append_opens (filename data : Bytes) :
    (d.append filename data).opens = d.opens := by
  rw [append]
  split <;> rfl

theorem readfile_append (filename data : Bytes) (file : (d.opens filename).isSome) :
    (d.append filename data).readfile filename = d.readfile filename ++ data := by
  obtain ⟨i, file⟩ := Option.isSome_iff_exists.mp file
  simp [readfile, append, file]

end Disk

/-- What the file system does when `writefile` opens a file, writes to it and closes it: the open
fails, all the data reach the file, or only the first bytes do, which shows in `write` or, where the
data were buffered, not before `close`. -/
inductive WriteOutcome where
  | openFails
  | stored
  | writeFails (taken : Nat)
  | flushFails (taken : Nat)
  deriving DecidableEq, Repr

/-- `writefile` in the mode `app`, with what it returns. Only a failed `write` sets the bit that
`bad` tests. -/
def writefile {ι : Type} [DecidableEq ι] (d : Disk ι) (outcome : WriteOutcome)
    (filename data : Bytes) : Disk ι × Bool :=
  match d.opens filename, outcome with
  -- nothing is written to a stream that is not open, and that is `fail`, not `bad`
  | none, _ | some _, .openFails => (d, true)
  | some _, .stored => (d.append filename data, true)
  | some _, .writeFails taken => (d.append filename (data.take taken), false)
  | some _, .flushFails taken => (d.append filename (data.take taken), true)

/-- `zn_untar_exception` with its texts. -/
structure UntarException where
  what : String
  name : Bytes
  deriving DecidableEq, Repr

/-- `zn_untar_stream::on_write`: the disk, and the exception if there is one. -/
def untarOnWrite {ι : Type} [DecidableEq ι] (d : Disk ι) (outcome : WriteOutcome)
    (filename content : Bytes) : Disk ι × Except UntarException Nat :=
  let written := writefile d outcome filename content
  (written.1, if written.2 then .ok content.length else .error ⟨"write file error", filename⟩)

theorem untarOnWrite_stored {ι : Type} [DecidableEq ι] (d : Disk ι) (filename content : Bytes) :
    untarOnWrite d .stored filename content = (d.append filename content, .ok content.length) := by
  cases file : d.opens filename with
  | none => simp [untarOnWrite, writefile, Disk.append, file]
  | some i => simp [untarOnWrite, writefile, file]

/-! ### `zn_mailbox_dump_stream` -/

def metaSuffix : Bytes := ascii ".meta"

/-- A dump stream; `msgDigest` holds the bytes fed to the digest since it was last cleared. -/
structure MailboxDumpStream (ι : Type) where
  disk : Disk ι
  dataDirectory : Bytes
  mailbox : List MailboxEntry
  msgDigest : Bytes

namespace MailboxDumpStream

variable {ι : Type} [DecidableEq ι] (digest : Bytes → Bytes) (uninit : Int)

/-- The branch of `on_write` for a file that is complete. `none` is an exception (`substr` on a
name shorter than the suffix, or the one of `load_meta`) or `back` on an empty mailbox. -/
def fileDownloaded (s : MailboxDumpStream ι) (name : Bytes) : Option (MailboxDumpStream ι) :=
  let filename := s.dataDirectory ++ name
  -- `substr` from before the start of the name throws
  if name.length < metaSuffix.length then none
  else if name.drop (name.length - metaSuffix.length) = metaSuffix then
    (Metafile.loadMeta uninit .init (s.disk.readfile filename)).map fun loaded =>
      { s with
        mailbox := s.mailbox ++ [.ofMeta loaded.1]
        msgDigest := [] }
  else
    s.mailbox.getLast?.map fun last =>
      { s with
        mailbox :=
          if last.metafile.getValue (ascii "blob_digest") = digest s.msgDigest then
            s.mailbox.dropLast ++ [{ last with mail := ⟨filename⟩ }]
          else s.mailbox
        msgDigest := [] }

/-- `zn_mailbox_dump_stream::on_write`; `none` is an exception. -/
def onWrite (s : MailboxDumpStream ι) (call : WriteCall) (outcome : WriteOutcome) :
    Option (MailboxDumpStream ι) :=
  match untarOnWrite s.disk outcome (s.dataDirectory ++ call.info.name) call.content with
  | (_, .error _) => none
  | (disk, .ok _) =>
    let s := { s with disk := disk, msgDigest := s.msgDigest ++ call.content }
    if call.info.bytesLeft = call.content.length then s.fileDownloaded digest uninit call.info.name
    else some s

/-- A sequence of calls on a file system that stores what it is given. -/
def onWriteAll (s : MailboxDumpStream ι) (calls : List WriteCall) :
    Option (MailboxDumpStream ι) :=
  calls.foldlM (fun s call => onWrite digest uninit s call .stored) s

theorem onWrite_stored (s : MailboxDumpStream ι) (call : WriteCall) :
    onWrite digest uninit s call .stored =
      let s' : MailboxDumpStream ι :=
        { s with
          disk := s.disk.append (s.dataDirectory ++ call.info.name) call.content
          msgDigest := s.msgDigest ++ call.content }
      if call.info.bytesLeft = call.content.length then
        s'.fileDownloaded digest uninit call.info.name
      else some s' := by
  rw [onWrite, untarOnWrite_stored]

/-- All the calls for a file write its content at once and then complete it. -/
theorem onWriteAll_contentCalls (info : TarInfo) (content : Bytes) (s : MailboxDumpStream ι) :
    onWriteAll digest uninit s (contentCalls info content) =
      fileDownloaded digest uninit
        { s with
          disk := s.disk.append (s.dataDirectory ++ info.name) content
          msgDigest := s.msgDigest ++ content } info.name := by
  induction len : content.length using Nat.strongRecOn generalizing s content with
  | ind l ih =>
    by_cases long : tarBlockSize < content.length
    · have pos : 0 < tarBlockSize := by decide
      have shorter : (content.drop tarBlockSize).length = content.length - tarBlockSize :=
        List.length_drop
      -- more is left than this block, so the file is not complete
      have notLast : content.length ≠ (content.take tarBlockSize).length := by
        rw [List.length_take]; omega
      have rest := fun s => ih (content.drop tarBlockSize).length (by omega)
        (content.drop tarBlockSize) s rfl
      rw [contentCalls_long info content long, onWriteAll, List.foldlM_cons, onWrite_stored]
      simp only [notLast, if_false, Option.bind_eq_bind, Option.bind_some]
      rw [← onWriteAll, rest]
      -- writing block after block comes to writing the content at once
      simp only [Disk.append_append, List.append_assoc, List.take_append_drop]
    · have short : content.length ≤ tarBlockSize := Nat.le_of_not_lt long
      rw [contentCalls_short info content short, onWriteAll, List.foldlM_cons, onWrite_stored]
      simp

end MailboxDumpStream

end Zn
