import MyStudy.Apue.PrintRequest

/-!
# What clients ask for

The header that `submit_file` of `print.c` makes, and the headers that fit into the buffers of
`printer_thread`.
-/
namespace Apue.Printd

/-! ### The client -/

/-- The user's name, if there is one, cut by `strncpy`. -/
def userName : Option Bytes → Bytes
  | none => ascii "unknown"
  | some pwName => pwName.take (usernmMax - 1)

/-- The path, or the end of it. -/
def jobName (fname : Bytes) : Bytes :=
  if jobnmMax ≤ fname.length then ascii "... " ++
    fname.drop (fname.length - jobnmMax + 5) else fname

theorem length_userName (pwName : Option Bytes) : (userName pwName).length ≤ 63 := by
  cases pwName with
  | none => decide
  | some name => simp [userName, usernmMax]

theorem length_jobName (fname : Bytes) : (jobName fname).length ≤ 255 := by
  rw [jobName]
  split
  next long =>
    have four : (ascii "... ").length = 4 := rfl
    simp only [List.length_append, List.length_drop, four, jobnmMax] at long ⊢
    omega
  next short =>
    simp only [jobnmMax] at short
    omega

/-- What of `usernm` stands behind the name: `strncpy` fills it up, and `strcpy` leaves what was
there. -/
def behindUser (stale : Bytes) : Option Bytes → Bytes
  | none => 0 :: stale.drop 8
  | some pwName => List.replicate (usernmMax - (userName (some pwName)).length) 0

/-- The header that `submit_file` sends, made over what was in `req` before. -/
def submitFile (pwName : Option Bytes) (fname : Bytes) (nbytes : Nat) (text : Bool)
    (stale : Printreq) :
    Printreq where
  size := UInt32.ofNat nbytes
  flags := if text then prText else 0
  usernm := userName pwName ++ behindUser stale.usernm pwName
  jobnm := jobName fname ++ 0 :: stale.jobnm.drop ((jobName fname).length + 1)
  usernm_length := by
    have short := length_userName pwName
    cases pwName with
    | none => simp [userName, behindUser, ascii, stale.usernm_length, usernmMax]
    | some name =>
      simp only [behindUser, List.length_append, List.length_replicate, usernmMax]
      omega
  jobnm_length := by
    have short := length_jobName fname
    simp only [List.length_append, List.length_cons, List.length_drop, stale.jobnm_length, jobnmMax]
    omega

section Names

variable {pwName : Option Bytes} {fname rest : Bytes}

theorem behindUser_eq (pwName : Option Bytes) (stale : Bytes) :
    ∃ more, behindUser stale pwName = 0 :: more := by
  cases pwName with
  | none => exact ⟨_, rfl⟩
  | some name =>
    have short := length_userName (some name)
    have room : usernmMax - (userName (some name)).length =
      (62 - (userName (some name)).length) + 1 + 1 ∨
        usernmMax - (userName (some name)).length = 1 := by
      simp only [usernmMax]
      omega
    rcases room with more | one
    · exact ⟨_, by rw [behindUser, more, List.replicate_succ]⟩
    · exact ⟨[], by rw [behindUser, one]; rfl⟩

theorem nul_notMem_userName (clean : ∀ name ∈ pwName, 0 ∉ name) : 0 ∉ userName pwName := by
  cases pwName with
  | none => decide
  | some name => exact fun zero => clean name rfl (List.mem_of_mem_take zero)

theorem nul_notMem_jobName (clean : 0 ∉ fname) : 0 ∉ jobName fname := by
  rw [jobName]
  split
  next =>
    have plain : 0 ∉ ascii "... " := by decide
    rw [List.mem_append, not_or]
    exact ⟨plain, fun zero => clean (List.mem_of_mem_drop zero)⟩
  next => exact clean

/-- The daemon finds the names again. -/
theorem cstr_usernm {nbytes : Nat} {text : Bool} {stale : Printreq}
    (clean : ∀ name ∈ pwName, 0 ∉ name) :
    cstr ((submitFile pwName fname nbytes text stale).usernm ++ rest) = userName pwName := by
  obtain ⟨more, behind⟩ := behindUser_eq pwName stale.usernm
  change cstr (userName pwName ++ behindUser stale.usernm pwName ++ rest) = userName pwName
  rw [behind, List.append_assoc, List.cons_append]
  exact cstr_terminated _ _ (nul_notMem_userName clean)

theorem cstr_jobnm {nbytes : Nat} {text : Bool} {stale : Printreq} (clean : 0 ∉ fname) :
    cstr (submitFile pwName fname nbytes text stale).jobnm = jobName fname :=
  cstr_terminated _ _ (nul_notMem_jobName clean)

end Names

/-! ### The buffers -/

theorem length_addOption (tag : UInt8) (optname optval : Bytes) :
    (addOption tag optname optval).length = 5 + optname.length + optval.length := by
  simp only [addOption, List.length_cons, List.length_append, length_be16]
  omega

theorem length_ippBytes (printerName usernm jobnm : Bytes) (job : Job) :
    (ippBytes printerName job usernm jobnm).length =
      160 + printerName.length + usernm.length + jobnm.length +
      (documentFormat job.req).length := by
  have constants : (ascii "attributes-charset").length = 18 ∧ (ascii "utf-8").length = 5 ∧
      (ascii "attributes-natural-language").length = 27 ∧ (ascii "en-us").length = 5 ∧
      (ascii "printer-uri").length = 11 ∧ (ascii "requesting-user-name").length = 20 ∧
      (ascii "job-name").length = 8 ∧ (ascii "document-format").length = 15 ∧
      (ascii "http://").length = 7 ∧ (ascii "/ipp").length = 4 := by decide
  simp only [ippBytes, printerUri, List.length_append, List.length_cons, List.length_nil,
    length_addOption, length_be16, length_be32, constants]
  omega

/-- Which headers fit. -/
theorem ippHeader_isSome_iff {printerName : Bytes} {job : Job} :
    (ippHeader printerName job).isSome ↔ 0 ∈ job.req.jobnm ∧ printerName.length ≤ 52 ∧
      printerName.length + (cstr (job.req.usernm ++ job.req.jobnm)).length +
      (cstr job.req.jobnm).length +
        (documentFormat job.req).length ≤ 352 := by
  have uri : (printerUri printerName).length = printerName.length + 11 := by
    have constants : (ascii "http://").length = 7 ∧ (ascii "/ipp").length = 4 := by decide
    simp only [printerUri, List.length_append, constants]
    omega
  by_cases ends : 0 ∈ job.req.jobnm
  · have both : 0 ∈ job.req.usernm ++ job.req.jobnm := List.mem_append_right _ ends
    simp only [ippHeader, cstring, List.contains_iff_mem, ends, both, if_true, true_and, uri,
      length_ippBytes, ibufsz]
    constructor
    · intro fits
      split at fits
      next room => omega
      next => simp at fits
    · intro room
      rw [if_pos (by omega)]
      rfl
  · have endless : cstring job.req.jobnm = none := by simp [cstring, ends]
    have nothing : ippHeader printerName job = none := by
      rw [ippHeader]
      split
      next found => simp [endless] at found
      next => rfl
    simp [nothing, ends]

theorem ippHeader_eq {printerName ibuf : Bytes} {job : Job}
    (fits : ippHeader printerName job = some ibuf) :
    ibuf = ippBytes printerName job (cstr (job.req.usernm ++ job.req.jobnm))
      (cstr job.req.jobnm) := by
  have known {b name : Bytes} (found : cstring b = some name) : name = cstr b := by
    rw [cstring] at found
    split at found
    · exact (Option.some.inj found).symm
    · cases found
  rw [ippHeader] at fits
  split at fits
  next usernm jobnm user its =>
    rw [known user, known its] at fits
    dsimp only at fits
    split at fits
    · exact (Option.some.inj fits).symm
    · cases fits
  next => cases fits

/-- A request as the daemon has it, after it has looked at the document. -/
def Received (sent req : Printreq) : Prop := req = sent ∨ req = sent.setText

theorem length_documentFormat (req : Printreq) : (documentFormat req).length ≤ 22 := by
  rw [documentFormat]
  split <;> decide

/-- **What `print` sends fits** into the buffers of `printer_thread` for every user and every path
if and only if the printer's name has at most 12 characters. -/
theorem print_requests_fit (printerName : Bytes) :
    (∀ pwName fname nbytes text stale jobid req, (∀ name ∈ pwName, 0 ∉ name) → 0 ∉ fname →
      Received (submitFile pwName fname nbytes text stale) req →
      (ippHeader printerName ⟨jobid, req⟩).isSome) ↔
      printerName.length ≤ 12 := by
  constructor
  · intro fits
    let user : Bytes := List.replicate 63 97
    let path : Bytes := List.replicate 256 97
    let stale : Printreq :=
      ⟨0, 0, List.replicate 64 0, List.replicate 256 0, List.length_replicate,
        List.length_replicate⟩
    have clean (n : Nat) : 0 ∉ List.replicate n (97 : UInt8) := fun zero => by
      cases List.eq_of_mem_replicate zero
    have cleanUser : ∀ name ∈ some user, 0 ∉ name := by
      rintro name ⟨⟩
      exact clean 63
    have cleanPath : 0 ∉ path := clean 256
    have all := fits (some user) path 0 false stale 0 _ cleanUser cleanPath (.inl rfl)
    have room := (ippHeader_isSome_iff.mp all).2.2
    rw [cstr_usernm cleanUser, cstr_jobnm cleanPath] at room
    have longUser : (userName (some user)).length = 63 := by decide +kernel
    have longPath : (jobName path).length = 255 := by decide +kernel
    have format : (documentFormat (submitFile (some user) path 0 false stale)).length = 22 := by
      decide +kernel
    simp only [longUser, longPath, format] at room
    omega
  · intro short pwName fname nbytes text stale jobid req cleanUser cleanPath received
    have names : req.usernm = (submitFile pwName fname nbytes text stale).usernm ∧
        req.jobnm = (submitFile pwName fname nbytes text stale).jobnm := by
      rcases received with rfl | rfl <;> exact ⟨rfl, rfl⟩
    have format := length_documentFormat req
    have user := length_userName pwName
    have job := length_jobName fname
    rw [ippHeader_isSome_iff, names.1, names.2, cstr_usernm cleanUser, cstr_jobnm cleanPath]
    refine ⟨?_, by omega, ?_⟩
    · simp [submitFile]
    · simp only
      omega

end Apue.Printd
