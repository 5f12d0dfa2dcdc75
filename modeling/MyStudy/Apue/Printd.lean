import MyStudy.Apue.PrintRequest
import MyStudy.Lib.Directory

/-!
# The print spooler

`printd.c`: the threads that take jobs from clients, the one that sends them to the printer, and
what the daemon finds when it is started again. A step is one system call, or what a thread does
while it holds `joblock`; the daemon may end between any two of them. What clients and the printer
send, and which calls fail, comes from outside.
-/
namespace Apue.Printd

/-! ### Files -/

/-- The files in `data` and in `reqs`. -/
inductive Name where
  | data (dName : Bytes)
  | reqs (dName : Bytes)
  deriving DecidableEq

def dataName (jobid : Int) : Name := .data (Zn.toStringInt jobid)

def reqsName (jobid : Int) : Name := .reqs (Zn.toStringInt jobid)

def Name.inReqs : Name → Option Bytes
  | .data _ => none
  | .reqs dName => some dName

/-- What `readdir` finds in `reqs`. -/
def reqsEntries (fs : Directory Name) : List Bytes := fs.entries.keys.filterMap Name.inReqs

/-- The path of the job file, which `init_request` reads the file over. -/
def jobPath : Bytes := ascii "/var/spool/printer/jobno"

/-- The job number that `init_request` finds. -/
def readJobno (jobfile : Bytes) : Int :=
  if jobfile = [] then 1 else Zn.atoi (jobfile ++ jobPath.drop jobfile.length)

/-- `update_jobno` writes over what is there. -/
def writeJobno (jobfile : Bytes) (nextjob : Int) : Bytes :=
  Zn.toStringInt nextjob ++ jobfile.drop (Zn.toStringInt nextjob).length

/-- `nextjob++` on 32 bits, and no number that is not positive. -/
def increment (nextjob : Int) : Int :=
  if Int.bmod (nextjob + 1) (2 ^ 32) ≤ 0 then 1 else Int.bmod (nextjob + 1) (2 ^ 32)

/-! ### Threads -/

/-- What a client thread is about to do. -/
inductive Client where
  | idle
  | header
  | number (req : Printreq)
  | creatData (req : Printreq) (jobid : Int)
  | reading (req : Printreq) (jobid : Int) (file : Nat) (first : Bool) (got : Bytes)
  | writing (req : Printreq) (jobid : Int) (file : Nat) (got chunk : Bytes)
  | creatReqs (req : Printreq) (jobid : Int) (got : Bytes)
  | writeReqs (req : Printreq) (jobid : Int) (file : Nat) (got : Bytes)
  | respond (req : Printreq) (jobid : Int) (got : Bytes)
  | addJob (req : Printreq) (jobid : Int) (got : Bytes)
  | unlinkReqs (jobid : Int)
  | unlinkData (jobid : Int)
  deriving DecidableEq

/-- What the printer thread is about to do; `wire` is what it has written to the printer. -/
inductive Printer where
  | waiting
  | updateJobno (job : Job)
  | config (job : Job)
  | openData (job : Job)
  | fstat (job : Job) (file : Nat)
  | connect (job : Job) (file size : Nat)
  | headers (job : Job) (file size : Nat)
  | backspace (job : Job) (file : Nat) (wire : Bytes)
  | read (job : Job) (file offset : Nat) (wire : Bytes)
  | write (job : Job) (file offset : Nat) (chunk wire : Bytes)
  | status (job : Job) (wire : Bytes)
  | unlinkData (job : Job)
  | unlinkReqs (job : Job)
  | replace (job : Job)
  deriving DecidableEq

/-- The job that the printer thread has taken off the list. -/
def Printer.job : Printer → Option Job
  | .waiting => none
  | .updateJobno job | .config job | .openData job | .fstat job _ | .connect job _
      _ | .headers job _ _
  | .backspace job _ _ | .read job _ _ _ | .write job _ _ _ _ | .status job _ | .unlinkData
      job | .unlinkReqs job
  | .replace job => some job

/-- The first thread: `build_qonstart` with the entries that are left, and then the loop. After an
overflow the daemon does nothing that anybody knows. -/
inductive Main where
  | down
  | build (entries : List Bytes)
  | unlinkReqs (dName : Bytes) (entries : List Bytes)
  | unlinkData (dName : Bytes) (entries : List Bytes)
  | addJob (job : Job) (entries : List Bytes)
  | serving
  | overflow
  deriving DecidableEq

/-! ### States -/

/-- A job, with the bytes that the daemon had read of its client when it stopped: at their end, at
an error, or when the client was too slow. -/
structure Accepted where
  job : Job
  data : Bytes
  deriving DecidableEq

/-- What the printer was sent before it answered that all is well. -/
structure Printed where
  job : Job
  printerName : Bytes
  wire : Bytes
  deriving DecidableEq

/-- What has happened: of which jobs the control file was written whole, which were accepted (their
clients were told their numbers) and which were printed at all, and since the last start which were
put on the list and which the printer thread was done with, some of them because a file could not be
opened. -/
structure History where
  received : List Accepted
  accepted : List Accepted
  printed : List Printed
  added : List Job
  done : List Job
  deriving DecidableEq

structure State (Tid : Type) where
  fs : Directory Name
  jobfile : Bytes
  printerName : Bytes
  reread : Bool
  nextjob : Int
  main : Main
  queue : List Job
  clients : Tid → Client
  printer : Printer
  past : History

/-- What comes from outside: a call succeeds or fails, or tells how much it wrote, or what it read
and what the buffer still held behind it; the name of the printer in the configuration file. -/
inductive Answer where
  | ok
  | fails
  | wrote (n : Nat)
  | got (bytes stale : Bytes)
  | named (printerName : Bytes)
  deriving DecidableEq

inductive Label (Tid : Type) where
  | start (entries : List Bytes) (printerName : Bytes)
  | main (answer : Answer)
  | accept (t : Tid)
  | client (t : Tid) (answer : Answer)
  | printer (answer : Answer)
  | hangup
  | crash
  deriving DecidableEq

/-! ### Steps -/

namespace State

variable {Tid : Type} [DecidableEq Tid]

def setClient (s : State Tid) (t : Tid) (point : Client) : State Tid :=
  { s with clients := Function.update s.clients t point }

/-- `add_job`, as far as the list goes. -/
def addJob (s : State Tid) (job : Job) : State Tid :=
  { s with queue := s.queue ++ [job], past := { s.past with added := s.past.added ++ [job] } }

/-- The printer thread is done with a job. -/
def finish (s : State Tid) (job : Job) : State Tid :=
  { s with printer := .waiting, past := { s.past with done := s.past.done ++ [job] } }

/-- `init_request` and `init_printer`. -/
def start (s : State Tid) (entries : List Bytes) (printerName : Bytes) : State Tid :=
  { s with
    printerName
    reread := false
    nextjob := readJobno s.jobfile
    main := .build entries
    past := { s.past with added := [], done := [] } }

/-- The daemon ends, wherever its threads are. -/
def crash (s : State Tid) : State Tid :=
  { s with main := .down, queue := [], clients := fun _ => .idle, printer := .waiting }

/-- `build_qonstart`. -/
def goMain (s : State Tid) : Main → Answer → Option (State Tid)
  | .build [], .ok => some { s with main := .serving }
  | .build (_ :: entries), .fails => some { s with main := .build entries }
  | .build (dName :: entries), .got _ _ => some { s with main := .unlinkReqs dName entries }
  | .build (dName :: entries), .ok =>
    match s.fs.text (.reqs dName) with
    | none => some { s with main := .build entries }
    | some bytes =>
      match Printreq.ofImage (bytes.take sizeofPrintreq) with
      | none => some { s with main := .unlinkReqs dName entries }
      | some req => some { s with main := .addJob ⟨Zn.atoi dName, req⟩ entries }
  | .unlinkReqs dName entries, .ok =>
    some { s with fs := s.fs.unlink (.reqs dName), main := .unlinkData dName entries }
  | .unlinkData dName entries, .ok =>
    some { s with fs := s.fs.unlink (.data dName), main := .build entries }
  | .addJob job entries, .ok => some { s.addJob job with main := .build entries }
  | _, _ => none

/-- `client_thread`. -/
def goClient (s : State Tid) (t : Tid) : Client → Answer → Option (State Tid)
  | .header, .got bytes _ =>
    match Printreq.ofNet bytes with
    | some req => some (s.setClient t (.number req))
    | none => some (s.setClient t .idle)
  | .number req, .ok =>
    some ({ s with nextjob := increment s.nextjob }.setClient t (.creatData req s.nextjob))
  | .creatData req jobid, .ok =>
    let (fs, file) := s.fs.creat (dataName jobid)
    some ({ s with fs }.setClient t (.reading req jobid file true []))
  | .creatData _ _, .fails => some (s.setClient t .idle)
  | .reading req jobid file first got, .got bytes stale =>
    if bytes = [] then some (s.setClient t (.creatReqs req jobid got))
    else if iobufsz < bytes.length then none
    else
      -- the first four bytes of `buf`, of which the client may have sent less
      let req := if first ∧ (bytes ++ stale).take 4 ≠ ascii "%!PS" then req.setText else req
      some (s.setClient t (.writing req jobid file got bytes))
  | .writing req jobid file got chunk, .wrote n =>
    if n = chunk.length then
      some ({ s with fs := s.fs.write file got.length chunk }.setClient t
        (.reading req jobid file false (got ++ chunk)))
    else if n < chunk.length then
      some ({ s with fs := s.fs.write file got.length (chunk.take n) }.setClient t
        (.unlinkData jobid))
    else none
  | .writing _ jobid _ _ _, .fails => some (s.setClient t (.unlinkData jobid))
  | .creatReqs req jobid got, .ok =>
    let (fs, file) := s.fs.creat (reqsName jobid)
    some ({ s with fs }.setClient t (.writeReqs req jobid file got))
  | .creatReqs _ jobid _, .fails => some (s.setClient t (.unlinkData jobid))
  | .writeReqs req jobid file got, .wrote n =>
    if n = sizeofPrintreq then
      some ({ s with
        fs := s.fs.write file 0 req.image
        past := { s.past with received := ⟨⟨jobid, req⟩, got⟩ :: s.past.received } }.setClient t
        (.respond req jobid got))
    else if n < sizeofPrintreq then
      some ({ s with fs := s.fs.write file 0 (req.image.take n) }.setClient t (.unlinkReqs jobid))
    else none
  | .writeReqs _ jobid _ _, .fails => some (s.setClient t (.unlinkReqs jobid))
  | .respond req jobid got, .ok =>
    some ({ s with
      past := { s.past with accepted := ⟨⟨jobid, req⟩, got⟩ :: s.past.accepted } }.setClient t
        (.addJob req jobid got))
  | .addJob req jobid _, .ok => some ((s.addJob ⟨jobid, req⟩).setClient t .idle)
  | .unlinkReqs jobid, .ok =>
    some ({ s with fs := s.fs.unlink (reqsName jobid) }.setClient t (.unlinkData jobid))
  | .unlinkData jobid, .ok => some ({ s with fs := s.fs.unlink (dataName jobid) }.setClient t .idle)
  | _, _ => none

/-- `printer_thread`. -/
def goPrinter (s : State Tid) : Printer → Answer → Option (State Tid)
  | .waiting, .ok =>
    match s.queue with
    | [] => none
    | job :: queue => some { s with queue, printer := .updateJobno job }
  | .updateJobno job, .ok =>
    some { s with jobfile := writeJobno s.jobfile s.nextjob, printer := .config job }
  | .config job, .named printerName =>
    some { s with
      printerName := if s.reread then printerName else s.printerName
      reread := false
      printer := .openData job }
  | .openData job, .ok =>
    match s.fs.find (dataName job.jobid) with
    | none => some (s.finish job)
    | some file => some { s with printer := .fstat job file }
  | .openData job, .fails => some (s.finish job)
  | .fstat job file, .ok => some { s with printer := .connect job file (s.fs.content file).length }
  | .fstat job _, .fails => some (s.finish job)
  | .connect job file size, .ok => some { s with printer := .headers job file size }
  | .connect job _ _, .fails => some { s with printer := .replace job }
  | .headers job file size, .wrote n =>
    match ippHeader s.printerName job with
    | none => some { s with main := .overflow }
    | some ibuf =>
      let wire := httpHeader s.printerName (size + ibuf.length + extra job.req) ++ ibuf
      if n = wire.length then
        some { s with
          printer := if job.req.isText then .backspace job file wire else .read job file 0 wire }
      else some { s with printer := .replace job }
  | .backspace job file wire, .ok => some { s with printer := .read job file 0 (wire ++ [8]) }
  | .backspace job _ _, .fails => some { s with printer := .replace job }
  | .read job file offset wire, .ok =>
    let chunk := ((s.fs.content file).drop offset).take iobufsz
    if chunk = [] then some { s with printer := .status job wire }
    else some { s with printer := .write job file (offset + chunk.length) chunk wire }
  | .read job _ _ _, .fails => some { s with printer := .replace job }
  | .write job file offset chunk wire, .ok =>
    some { s with printer := .read job file offset (wire ++ chunk) }
  | .write job _ _ _ _, .fails => some { s with printer := .replace job }
  | .status job wire, .ok =>
    some { s with
      printer := .unlinkData job
      past := { s.past with printed := ⟨job, s.printerName, wire⟩ :: s.past.printed } }
  | .status job _, .fails => some { s with printer := .replace job }
  | .unlinkData job, .ok =>
    some { s with fs := s.fs.unlink (dataName job.jobid), printer := .unlinkReqs job }
  | .unlinkReqs job, .ok => some ({ s with fs := s.fs.unlink (reqsName job.jobid) }.finish job)
  | .replace job, .ok => some { s with queue := job :: s.queue, printer := .waiting }
  | _, _ => none

/-- Whether the threads run. -/
def up (s : State Tid) : Bool := s.main ≠ .down && s.main ≠ .overflow

end State

variable {Tid : Type} [DecidableEq Tid]

def step (s : State Tid) : Label Tid → Option (State Tid)
  | .start entries printerName =>
    if s.main = .down ∧ entries.Perm (reqsEntries s.fs) then some
      (s.start entries printerName) else none
  | .main answer => if s.up then s.goMain s.main answer else none
  | .accept t =>
    if s.main = .serving ∧ s.clients t = .idle then some (s.setClient t .header) else none
  | .client t answer => if s.up then s.goClient t (s.clients t) answer else none
  | .printer answer => if s.up then s.goPrinter s.printer answer else none
  | .hangup => if s.up then some { s with reread := true } else none
  | .crash => if s.up then some s.crash else none

/-- An empty spool directory. -/
def State.init : State Tid where
  fs := .empty
  jobfile := []
  printerName := []
  reread := false
  nextjob := 1
  main := .down
  queue := []
  clients _ := .idle
  printer := .waiting
  past := ⟨[], [], [], [], []⟩

/-- The daemon is not running, over whatever files there are. -/
def State.found (fs : Directory Name) (jobfile : Bytes) : State Tid :=
  { State.init with fs, jobfile }

end Apue.Printd
