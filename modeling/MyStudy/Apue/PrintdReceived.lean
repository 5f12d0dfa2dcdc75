import MyStudy.Apue.PrintdKept
import MyStudy.Apue.PrintSubmit
import MyStudy.Lib.Ipp

/-!
# What the printer receives

The printer reads what it was sent as an operation with the number, the names and the document that
a client gave.
-/
namespace Apue.Printd

open Ipp Transition

/-! ### Headers -/

def requestLine : Bytes := ascii "POST /ipp HTTP/1.1"

/-- The lines of `httpHeader` behind the first. -/
def headerLines (printerName : Bytes) (length : Nat) : List Bytes :=
  [contentLengthField ++ decimal length, ascii "Content-Type: application/ipp",
    ascii "Host: " ++ printerName ++ ascii ":631"]

/-- The attributes of `ibuf`. -/
def requestAttributes (printerName : Bytes) (req : Printreq) : List Attribute :=
  [⟨tagCharset, ascii "attributes-charset", ascii "utf-8"⟩,
    ⟨tagNatulang, ascii "attributes-natural-language", ascii "en-us"⟩,
    ⟨tagUri, ascii "printer-uri", printerUri printerName⟩,
    ⟨tagNamewolang, ascii "requesting-user-name", cstr (req.usernm ++ req.jobnm)⟩,
    ⟨tagNamewolang, ascii "job-name", cstr req.jobnm⟩,
    ⟨tagMimetype, ascii "document-format", documentFormat req⟩]

/-- A document as the printer gets it: plain text stands behind a backspace. -/
def sentDocument (req : Printreq) (data : Bytes) : Bytes := (if req.isText then [8] else []) ++ data

/-- What the printer is to make of a job. -/
def printJob (printerName : Bytes) (job : Job) (data : Bytes) : Operation where
  major := 1
  minor := 1
  code := be16 opPrintJob
  requestId := be32 (UInt32.ofInt job.jobid)
  attributes := requestAttributes printerName job.req
  document := sentDocument job.req data

theorem httpHeader_eq (printerName rest : Bytes) (length : Nat) :
    httpHeader printerName length ++ rest =
      (requestLine :: headerLines printerName length).flatMap endLine ++ (endLine [] ++ rest) := by
  have crlf : ascii "\r\n" = [carriageReturn, lineFeed] := by decide
  have first : ascii "POST /ipp HTTP/1.1\r\n" = endLine requestLine := by decide +kernel
  have third : ascii "Content-Type: application/ipp\r\n" =
      endLine (ascii "Content-Type: application/ipp") := by
    decide +kernel
  have fourth : ascii ":631\r\n" = ascii ":631" ++ [carriageReturn, lineFeed] := by decide
  simp [httpHeader, headerLines, contentLengthField, crlf, first, third, fourth, endLine]

theorem ippBytes_eq (printerName rest : Bytes) (job : Job) :
    ippBytes printerName job (cstr (job.req.usernm ++ job.req.jobnm)) (cstr job.req.jobnm) ++ rest =
      [1, 1] ++ be16 opPrintJob ++ be32 (UInt32.ofInt job.jobid) ++
        (operationAttributes :: ((requestAttributes printerName job.req).flatMap Attribute.bytes ++
          endOfAttributes :: rest)) := by
  have add (tag : UInt8) (optname optval : Bytes) :
      addOption tag optname optval = Attribute.bytes ⟨tag, optname, optval⟩ := by
    simp [addOption, Attribute.bytes, text, be16]
  simp only [ippBytes, requestAttributes, add, List.flatMap_cons, List.flatMap_nil,
    List.append_assoc, List.append_nil, List.cons_append, List.nil_append]
  rfl

/-! ### Reading -/

theorem contentLength_headerLines (printerName : Bytes) (length : Nat) :
    contentLength (headerLines printerName length) = some length := by
  have its : contentLengthField.isPrefixOf (contentLengthField ++ decimal length) = true := by
    simp
  rw [contentLength, headerLines, List.find?_cons_of_pos its, Option.map_some, List.drop_left,
    numeral_decimal]

theorem headerLines_clean {printerName : Bytes} (clean : carriageReturn ∉ printerName)
    (length : Nat) :
    ∀ line ∈ requestLine :: headerLines printerName length, carriageReturn ∉ line ∧ line ≠ [] := by
  have digits : carriageReturn ∉ decimal length := fun member => by
    have digit := mem_decimal length _ member
    simp [isDigit, carriageReturn] at digit
  have plain : carriageReturn ∉ contentLengthField ∧ carriageReturn ∉ ascii "Host: " ∧
    carriageReturn ∉ ascii ":631" ∧
      carriageReturn ∉ requestLine ∧ carriageReturn ∉ ascii "Content-Type: application/ipp" := by
        decide +kernel
  obtain ⟨field, host, port, line, type⟩ := plain
  have some_ : requestLine ≠ [] ∧ ascii "Content-Type: application/ipp" ≠ [] ∧
      ascii ":631" ≠ [] := by decide
  simp only [headerLines, List.forall_mem_cons, List.mem_append, not_or]
  exact ⟨⟨line, some_.1⟩, ⟨⟨field, digits⟩, by simp [decimal_ne_nil]⟩, ⟨type, some_.2.1⟩,
    ⟨⟨⟨host, clean⟩, port⟩,
    by simp [some_.2.2]⟩, by simp⟩

theorem requestAttributes_short {printerName : Bytes} {req : Printreq}
    (fits : printerName.length + (cstr (req.usernm ++ req.jobnm)).length + (cstr req.jobnm).length +
      (documentFormat req).length ≤ 352) : ∀ a ∈ requestAttributes printerName req, a.Short := by
  have uri : (printerUri printerName).length = printerName.length + 11 := by
    have constants : (ascii "http://").length = 7 ∧ (ascii "/ipp").length = 4 := by decide
    simp only [printerUri, List.length_append, constants]
    omega
  have names : (ascii "attributes-charset").length < 2 ^ 16 ∧ (ascii "utf-8").length < 2 ^ 16 ∧
      (ascii "attributes-natural-language").length < 2 ^ 16 ∧ (ascii "en-us").length < 2 ^ 16 ∧
      (ascii "printer-uri").length < 2 ^ 16 ∧ (ascii "requesting-user-name").length < 2 ^ 16 ∧
      (ascii "job-name").length < 2 ^ 16 ∧ (ascii "document-format").length < 2 ^ 16 := by decide
  have tags : tagCharset ≠ endOfAttributes ∧ tagNatulang ≠ endOfAttributes ∧
    tagUri ≠ endOfAttributes ∧
      tagNamewolang ≠ endOfAttributes ∧ tagMimetype ≠ endOfAttributes := by decide
  simp only [requestAttributes, List.forall_mem_cons, Attribute.Short, ne_eq, names, tags, uri]
  simp
  omega

theorem readOperation_ippBytes {printerName rest : Bytes} {job : Job}
    (fits : (ippHeader printerName job).isSome) :
    readOperation (ippBytes printerName job (cstr (job.req.usernm ++ job.req.jobnm))
      (cstr job.req.jobnm) ++ rest) =
      some ⟨1, 1, be16 opPrintJob, be32 (UInt32.ofInt job.jobid),
      requestAttributes printerName job.req, rest⟩ := by
  have short := requestAttributes_short (ippHeader_isSome_iff.mp fits).2.2
  have fewer : (requestAttributes printerName job.req).length <
      ((requestAttributes printerName job.req).flatMap Attribute.bytes ++ endOfAttributes ::
        rest).length := by
    simp only [requestAttributes, List.flatMap_cons, Attribute.bytes, text, List.length_append,
      List.length_cons, List.length_nil]
    omega
  rw [ippBytes_eq]
  simp only [be16, be32, List.cons_append, List.nil_append, readOperation, if_true,
    readAttributes_bytes rest fewer short, Option.map_some]

theorem length_sentDocument (req : Printreq) (data : Bytes) :
    (sentDocument req data).length = data.length + extra req := by
  by_cases plain : req.isText <;> simp [sentDocument, extra, plain]

/-- **The printer reads a job** out of the request that it is sent. -/
theorem readRequest_request {printerName data wire : Bytes} {job : Job}
    (clean : carriageReturn ∉ printerName) (sent : request printerName job data = some wire) :
    ∃ length, readRequest wire =
      some ⟨requestLine, headerLines printerName length, printJob printerName job data⟩ := by
  obtain ⟨ibuf, fits, rfl⟩ := Option.map_eq_some_iff.mp sent
  have room := Option.isSome_of_eq_some fits
  obtain rfl := ippHeader_eq fits
  set ibuf := ippBytes printerName job (cstr (job.req.usernm ++ job.req.jobnm)) (cstr job.req.jobnm)
  set length := data.length + ibuf.length + extra job.req
  have wire : httpHeader printerName length ++ ibuf ++ sentDocument job.req data =
      (requestLine :: headerLines printerName length).flatMap endLine ++
        (endLine [] ++ (ibuf ++ sentDocument job.req data)) := by
    rw [List.append_assoc, httpHeader_eq]
  have body : (ibuf ++ sentDocument job.req data).length = length := by
    rw [List.length_append, length_sentDocument]
    omega
  have fewer : (requestLine :: headerLines printerName length).length <
      (httpHeader printerName length ++ ibuf ++ sentDocument job.req data).length := by
    have first : requestLine.length = 18 := by decide
    rw [wire]
    simp only [headerLines, List.flatMap_cons, endLine, List.length_append, List.length_cons,
      List.length_nil, first]
    omega
  refine ⟨length, ?_⟩
  change readRequest (httpHeader printerName length ++ ibuf ++ sentDocument job.req data) = _
  rw [readRequest]
  -- the lines of the head, the length of the body, and the operation in it
  have head :=
    readLines_endLine (ibuf ++ sentDocument job.req data) fewer (headerLines_clean clean length)
  rw [← wire] at head
  rw [head]
  dsimp only
  rw [contentLength_headerLines, body, if_pos rfl, readOperation_ippBytes room]
  rfl

/-! ### Runs -/

/-- What the printer has got is a job that the daemon received, the only one with its number. -/
def Readable (past : History) (p : Printed) : Prop :=
  ∃ a ∈ past.received, ∃ length,
    readRequest p.wire = some ⟨requestLine, headerLines p.printerName length,
      printJob p.printerName a.job a.data⟩ ∧
      ∀ b ∈ past.received ++ past.accepted, b.job.jobid = a.job.jobid → b = a

variable {Tid : Type} [DecidableEq Tid]

/-- **What is printed is what was received**: in every careful run, whatever the printer was sent
before it answered that all is well reads as the job of one client, with its number, its names and
all that the daemon had read of its document. -/
theorem printed_jobs_readable (labels : List (Label Tid))
    (careful : EachStep step Careful State.init labels) :
    Throughout step (fun s =>
      ∀ p ∈ s.past.printed, carriageReturn ∉ p.printerName → Readable s.past p)
      State.init labels := by
  refine throughout_of_invariant (fun _ _ _ sound careful steps => sound.step careful steps)
    (fun s sound => ?_)
    State.init labels sound_init careful
  intro p member clean
  obtain ⟨a, received, its, sent, one⟩ := (sound.printed p member).2.2
  rw [← its] at sent one
  obtain ⟨length, read⟩ := readRequest_request clean sent
  refine ⟨a, received, length, read, fun b member same => one b ?_ same⟩
  rcases List.mem_append.mp member with received | accepted
  · exact received
  · exact sound.accepted b accepted

/-- The printer gets a document of a client. -/
theorem printed_jobs_readable_once :
    let labels := [.start [] (ascii "p"), .main .ok] ++ submit true (ascii "a") ++ deliver 266
    (labels.foldlM step State.init).any (fun s => s.past.printed.length = 1) ∧
      Throughout step (fun s =>
        ∀ p ∈ s.past.printed, carriageReturn ∉ p.printerName → Readable s.past p)
        State.init labels := by
  exact ⟨by decide +kernel, printed_jobs_readable _ (by decide +kernel)⟩

end Apue.Printd
