import MyStudy.Zn.FolderInfo
import MyStudy.Zn.Metafile

/-!
# Mailboxes

The entries of a mailbox: what is known about a mail, and the file its text is in. The filters
bound their number, order them and send the mails of folders that were given up to the backup
folder.
-/
namespace Zn

/-- `zn_mailfile`: the name of the file, empty as long as none is bound. -/
structure Mailfile where
  filename : Bytes
  deriving DecidableEq, Repr

structure MailboxEntry where
  metafile : Metafile
  mail : Mailfile
  avaliable : Bool
  deriving DecidableEq, Repr

/-- A new entry with this meta: no file is bound, and the mail counts as available. -/
def MailboxEntry.ofMeta (metafile : Metafile) : MailboxEntry := ⟨metafile, ⟨[]⟩, true⟩

variable (cfg : Config)

/-- `zn_mailbox_limiter`: of too many entries the first ones by date stay. -/
def mailboxLimiter (stdSort : ComparisonSort) (entries : List MailboxEntry) : List MailboxEntry :=
  if entries.length > cfg.nsimMailStoreMax then
    (stdSort.sort (fun a b => decide (a.metafile.date < b.metafile.date)) entries).take
      cfg.nsimMailStoreMax
  else entries

def mailboxSorter (stdSort : ComparisonSort) (entries : List MailboxEntry) : List MailboxEntry :=
  stdSort.sort (fun a b => decide (a.metafile.id < b.metafile.id)) entries

/-- `zn_mailbox_backup_folder_replacement`. -/
def mailboxBackupFolderReplacement (replaced : List Int) (entries : List MailboxEntry) :
    List MailboxEntry :=
  entries.map fun e =>
    if e.metafile.folderId ∈ replaced then
      { e with metafile := { e.metafile with folderId := cfg.nsimBackupFolderId } }
    else e

/-- `zn_mailbox_mail_counter`: how many mails a folder has. -/
def mailboxMailCounter (entries : List MailboxEntry) : MailCounter :=
  entries.foldl (fun counter e => counter.add e.metafile.folderId 1) []

end Zn
