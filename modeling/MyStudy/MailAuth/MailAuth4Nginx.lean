import MyStudy.MailAuth.Mysql

/-!
# The HTTP authentication server

`MyHandler.do_GET` and the functions it calls. The library's HMAC-MD5 is a parameter. An exception
that is no `IOError` leaves the handler, and nothing is answered then: `none`.

## Main result

`doGet_iff`: which requests are let in or refused as they should be. The statement carries the name
as it comes, the comparison is that of the collation, and the password to compare with is empty for
a method that the branch of the protocol does not know.
-/
namespace MailAuth

open SqlString (ReadsAs EndsEarly)

/-! ### Configuration -/

/-- `int` of a decimal text. -/
def pyInt (text : Bytes) : Option Int :=
  let isSpace (c : UInt8) : Bool := c = 32 || (9 ≤ c && c ≤ 13)
  let stripped := (text.dropWhile isSpace).reverse.dropWhile isSpace |>.reverse
  let number (ds : Bytes) : Option Int :=
    if ds ≠ [] ∧ ds.all isDigit then some (numeral 10 ds) else none
  match stripped with
  | [] => none
  | c :: ds =>
    if c = '-'.toUInt8 then (number ds).map fun n => -n
    else if c = '+'.toUInt8 then number ds
    else number (c :: ds)

/-- `envDic`. -/
abbrev EnvDic := Bytes → Option Bytes

def getCnx (envDic : EnvDic) (db : Database) : Option Database := do
  let user ← envDic (ascii "DB_USER")
  let password ← envDic (ascii "DB_PASSWORD")
  let host ← envDic (ascii "DB_HOST")
  let port ← pyInt (← envDic (ascii "DB_PORT"))
  let database ← envDic (ascii "DB_NAME")
  if db.connects ⟨user, password, host, port, database⟩ then some db else none

/-! ### Requests -/

structure Headers where
  authUser : Option Bytes
  authProtocol : Option Bytes
  authMethod : Option Bytes
  authSalt : Option Bytes
  authPass : Option Bytes
  deriving DecidableEq, Repr

/-- What is written to the client. -/
structure Response where
  headers : List (Bytes × PyValue)
  body : Bytes
  deriving DecidableEq, Repr

def authStatus : Bytes := ascii "Auth-Status"

def statusOk : PyValue := .str (ascii "OK")

def Response.status (response : Response) : Option PyValue := response.headers.lookup authStatus

def invalidProtocol : Response :=
  ⟨[(authStatus, .str (ascii "Invalid protocol"))], ascii "Failure"⟩

def invalidLogin : Response :=
  ⟨[(authStatus, .str (ascii "Invalid login or password from http-auth-serv"))], ascii "Failure"⟩

def success (row : Row) (strAuthServ : PyValue) (strAuthPort : Int) : Response :=
  ⟨[(authStatus, statusOk), (ascii "Auth-User", row.userLoginId),
    (ascii "Auth-Pass", row.fixedLoginPwd),
    (ascii "Auth-Server", strAuthServ), (ascii "Auth-Port", .int strAuthPort)], ascii "SUCCESS"⟩

/-- The statement; an absent name is formatted, too. -/
def strSql (database table : Bytes) (strAuthUser : Option Bytes) : Bytes :=
  sqlHead database table ++ strAuthUser.getD (ascii "None") ++ [quote]

def authUser (envDic : EnvDic) (strAuthUser : Option Bytes) (conns : Database) :
    Option (Option Row) :=
  do
  let database ← envDic (ascii "DB_NAME")
  let table ← envDic (ascii "TABLE_NAME")
  match conns.execute (strSql database table strAuthUser) with
  | .raises => none
  | .nothing => some none
  | .row row => some (some row)

/-- `str`, which raises for a decoded text that is not ASCII. -/
def PyValue.toStr : PyValue → Option Bytes
  | .none => some (ascii "None")
  | .str text => some text
  | .unicode utf8 => if isAscii utf8 then some utf8 else Option.none
  | .int n => some (if n < 0 then '-'.toUInt8 :: decimal n.natAbs else decimal n.natAbs)
  | .other text => some text

def plain : Bytes := ascii "plain"
def cramMd5 : Bytes := ascii "cram-md5"
def imap : Bytes := ascii "imap"
def smtp : Bytes := ascii "smtp"

section Handler

variable (hexdigest : Bytes → Bytes → Bytes)

/-- Without a message nothing is hashed into the code. -/
def getEncWithHmacMD5 (enKey : Bytes) (enStr : Option Bytes) : Bytes :=
  hexdigest enKey (enStr.getD [])

/-- The password to compare with in the branch for `imap`. -/
def imapPassword (row : Row) (headers : Headers) : Option PyValue :=
  if headers.authMethod = some plain then some row.userPwd
  else if headers.authMethod = some cramMd5 then do
    let enKey ← row.userPwd.toStr
    some (.str (getEncWithHmacMD5 hexdigest enKey headers.authSalt))
  else some (.str [])

/-- The password to compare with in the branch for `smtp`. -/
def smtpPassword (row : Row) (headers : Headers) : PyValue :=
  if headers.authMethod = some plain then row.userPwd else .str []

/-- The branches for a row. -/
def answerRow (envDic : EnvDic) (row : Row) (headers : Headers) : Option Response :=
  if headers.authProtocol = some imap then do
    let strAuthPort ← pyInt (← envDic (ascii "EMAIL_MX_IMAP_PORT"))
    let curPassword ← imapPassword hexdigest row headers
    if curPassword.equals headers.authPass then some (success row row.imapServIp strAuthPort)
    else some invalidLogin
  else if headers.authProtocol = some smtp then
    if (smtpPassword row headers).equals headers.authPass then
      some (success row (.str (ascii "15.210.144.217")) 25)
    else some invalidLogin
  else some invalidProtocol

def doGet (envDic : EnvDic) (db : Database) (headers : Headers) : Option Response := do
  let conns ← getCnx envDic db
  let rsltDic ← authUser envDic headers.authUser conns
  match rsltDic with
  | none => some invalidLogin
  | some row => answerRow hexdigest envDic row headers

/-! ### What is expected -/

/-- A user of the table is named exactly so, and the password is presented by one of the two
methods. -/
structure Permitted (db : Database) (headers : Headers) (user : User) : Prop where
  protocol : headers.authProtocol = some imap ∨ headers.authProtocol = some smtp
  member : user ∈ db.users
  named : headers.authUser = some user.userName
  presented :
    headers.authMethod = some plain ∧ headers.authPass = some user.userPwd ∨
      headers.authMethod = some cramMd5 ∧ ∃ salt, headers.authSalt = some salt ∧
        headers.authPass = some (hexdigest user.userPwd salt)

/-- A failure is answered. -/
def Refused (response : Option Response) : Prop :=
  ∃ r status, response = some r ∧ r.status = some status ∧ status ≠ statusOk

/-- A request is let in only if it is permitted, and refused otherwise. -/
structure Judged (envDic : EnvDic) (db : Database) (headers : Headers) : Prop where
  letIn : ∀ r, doGet hexdigest envDic db headers = some r → r.status = some statusOk →
    ∃ user, Permitted hexdigest db headers user
  refused : (¬ ∃ user, Permitted hexdigest db headers user) →
    Refused (doGet hexdigest envDic db headers)

/-! ### When the server meets it -/

/-- The branch of the protocol has nothing to compare with for the method. -/
def Lenient (headers : Headers) : Prop :=
  headers.authProtocol = some imap ∧ headers.authMethod ≠ some plain ∧
    headers.authMethod ≠ some cramMd5 ∨
    headers.authProtocol = some smtp ∧ headers.authMethod ≠ some plain

/-- What is presented is the password of the row. -/
def Presents (row : Row) (headers : Headers) : Prop :=
  (headers.authProtocol = some imap ∨ headers.authProtocol = some smtp) ∧
      headers.authMethod = some plain ∧ row.userPwd.equals headers.authPass = true ∨
    headers.authProtocol = some imap ∧ headers.authMethod = some cramMd5 ∧
      ∃ enKey, row.userPwd.toStr = some enKey ∧
        headers.authPass = some (getEncWithHmacMD5 hexdigest enKey headers.authSalt)

/-- The handler comes to an answer for the row, and not by comparing with an empty password. -/
structure RowGuarded (envDic : EnvDic) (row : Row) (headers : Headers) : Prop where
  port : headers.authProtocol = some imap →
    ∃ text n, envDic (ascii "EMAIL_MX_IMAP_PORT") = some text ∧ pyInt text = some n
  encodable : headers.authProtocol = some imap → headers.authMethod = some cramMd5 →
    row.userPwd.toStr ≠ none
  known : Lenient headers → headers.authPass ≠ some []

/-- The request names the user exactly, and has a salt for a method that needs one. -/
structure Names (headers : Headers) (user : User) : Prop where
  named : headers.authUser = some user.userName
  salted : headers.authMethod = some cramMd5 → headers.authSalt ≠ none

/-- What the statement asks for; an absent name is formatted, too. -/
def Headers.text (headers : Headers) : Bytes := headers.authUser.getD (ascii "None")

/-- The text that the request puts between the quotes of the statement is no danger: it stands for a
name that nobody has, or for that of a user whose password is only presented under exactly this
name. A text that ends the literal early depends on what the rest of it selects. -/
inductive Guarded (envDic : EnvDic) (db : Database) (headers : Headers) : Prop
  | nobody (name : Bytes) (reads : ReadsAs quote headers.text name)
      (readable : db.readable name = true)
      (nobody : ∀ user ∈ db.users, db.same user.userName name = false)
  | user (name : Bytes) (user : User) (reads : ReadsAs quote headers.text name)
      (readable : db.readable name = true) (member : user ∈ db.users)
      (same : db.same user.userName name = true) (answers : RowGuarded envDic user.row headers)
      (own : Presents hexdigest user.row headers → Names headers user)
  | earlyNothing (early : EndsEarly quote headers.text)
      (nothing : db.other (db.statement headers.text) = .nothing)
  | earlyRow (row : Row) (early : EndsEarly quote headers.text)
      (selected : db.other (db.statement headers.text) = .row row)
      (answers : RowGuarded envDic row headers)
      (own : Presents hexdigest row headers → ∃ user ∈ db.users, row = user.row ∧
        Names headers user)

/-- The configuration names the database and the table. -/
structure Configured (envDic : EnvDic) (db : Database) : Prop where
  database : envDic (ascii "DB_NAME") = some db.database
  table : envDic (ascii "TABLE_NAME") = some db.table

/-! ### Rows -/

theorem status_success (row : Row) (serv : PyValue) (port : Int) :
    (success row serv port).status = some statusOk := by
  simp [success, Response.status]

theorem not_refused_none : ¬ Refused none := by
  rintro ⟨r, status, answered, _⟩
  simp at answered

theorem not_refused_of_ok {response : Response} (ok : response.status = some statusOk) :
    ¬ Refused (some response) := by
  rintro ⟨r, status, answered, written, other⟩
  obtain rfl := Option.some.inj answered
  rw [ok] at written
  exact other (Option.some.inj written).symm

theorem refused_invalidLogin : Refused (some invalidLogin) :=
  ⟨_, .str (ascii "Invalid login or password from http-auth-serv"), rfl,
    by simp [invalidLogin, Response.status], by decide⟩

theorem refused_invalidProtocol : Refused (some invalidProtocol) :=
  ⟨_, .str (ascii "Invalid protocol"), rfl, by simp [invalidProtocol, Response.status], by decide⟩

/-- The end of both branches. -/
theorem refused_compare (same : Bool) (row : Row) (serv : PyValue) (port : Int) :
    Refused (if same then some (success row serv port) else some invalidLogin) ↔ same = false := by
  cases same with
  | true => exact iff_of_false (not_refused_of_ok (status_success row serv port)) (by simp)
  | false => exact iff_of_true refused_invalidLogin rfl

/-- What has to hold of a row for the request to be refused. -/
structure RowRefused (envDic : EnvDic) (row : Row) (headers : Headers) : Prop
    extends RowGuarded envDic row headers where
  absent : ¬ Presents hexdigest row headers

theorem equals_str (text : Bytes) (header : Option Bytes) :
    (PyValue.str text).equals header = decide (header = some text) := by
  cases header with
  | none => rfl
  | some h => simp [PyValue.equals, eq_comm]

section Branches

variable {headers : Headers} (row : Row)

theorem plain_ne_cramMd5 : plain ≠ cramMd5 := by decide

theorem not_smtp (isImap : headers.authProtocol = some imap) :
    headers.authProtocol ≠ some smtp := by
  rw [isImap]
  decide

/-- The branch for `imap`, with its port. -/
theorem refused_imap_iff (envDic : EnvDic) (isImap : headers.authProtocol = some imap)
    (text : Bytes) (n : Int) (configured : envDic (ascii "EMAIL_MX_IMAP_PORT") = some text)
    (parsed : pyInt text = some n) :
    Refused (answerRow hexdigest envDic row headers) ↔ RowRefused hexdigest envDic row headers := by
  have port : headers.authProtocol = some imap →
      ∃ text n, envDic (ascii "EMAIL_MX_IMAP_PORT") = some text ∧ pyInt text = some n :=
    fun _ => ⟨text, n, configured, parsed⟩
  have noSmtp := not_smtp isImap
  -- with the port there, all depends on the password
  have answer : answerRow hexdigest envDic row headers =
      (imapPassword hexdigest row headers).bind fun curPassword =>
        if curPassword.equals headers.authPass then some (success row row.imapServIp n)
        else some invalidLogin := by
    rw [answerRow, if_pos isImap, configured]
    simp only [Option.bind_eq_bind, Option.bind_some, parsed]
  rw [answer, imapPassword]
  by_cases isPlain : headers.authMethod = some plain
  · have noCram : headers.authMethod ≠ some cramMd5 := by
      rw [isPlain]
      simpa using plain_ne_cramMd5
    rw [if_pos isPlain, Option.bind_some, refused_compare]
    constructor
    · intro differs
      refine ⟨⟨port, fun _ isCram => absurd isCram noCram, ?_⟩, ?_⟩
      · rintro (⟨_, noPlain, _⟩ | ⟨_, noPlain⟩)
        · exact absurd isPlain noPlain
        · exact absurd isPlain noPlain
      · rintro (⟨_, _, same⟩ | ⟨_, isCram, _⟩)
        · rw [differs] at same
          simp at same
        · exact noCram isCram
    · intro refused
      refine Bool.eq_false_iff.mpr fun same => ?_
      exact refused.absent (.inl ⟨.inl isImap, isPlain, same⟩)
  · rw [if_neg isPlain]
    by_cases isCram : headers.authMethod = some cramMd5
    · rw [if_pos isCram]
      -- the password is the key of the HMAC, and has to be one that `str` can encode
      cases key : row.userPwd.toStr with
      | none =>
        exact iff_of_false not_refused_none fun refused => refused.encodable isImap isCram key
      | some enKey =>
        simp only [Option.bind_eq_bind, Option.bind_some]
        rw [refused_compare, equals_str, decide_eq_false_iff_not]
        constructor
        · intro differs
          refine ⟨⟨port, fun _ _ none_ => ?_, ?_⟩, ?_⟩
          · rw [key] at none_
            simp at none_
          · rintro (⟨_, _, noCram⟩ | ⟨isSmtp, _⟩)
            · exact absurd isCram noCram
            · exact absurd isSmtp noSmtp
          · rintro (⟨_, isPlain', _⟩ | ⟨_, _, enKey', key', same⟩)
            · exact isPlain isPlain'
            · rw [key] at key'
              rw [← Option.some.inj key'] at same
              exact differs same
        · exact fun refused same => refused.absent (.inr ⟨isImap, isCram, enKey, key, same⟩)
    · -- any other method compares with the empty password that `curPassword` starts as
      rw [if_neg isCram, Option.bind_some, refused_compare, equals_str, decide_eq_false_iff_not]
      constructor
      · intro some_
        refine ⟨⟨port, fun _ isCram' => absurd isCram' isCram, fun _ => some_⟩, ?_⟩
        rintro (⟨_, isPlain', _⟩ | ⟨_, isCram', _⟩)
        · exact isPlain isPlain'
        · exact isCram isCram'
      · exact fun refused => refused.known (.inl ⟨isImap, isPlain, isCram⟩)

theorem refused_smtp_iff (envDic : EnvDic) (isSmtp : headers.authProtocol = some smtp) :
    Refused (answerRow hexdigest envDic row headers) ↔ RowRefused hexdigest envDic row headers := by
  have noImap : headers.authProtocol ≠ some imap := fun isImap => not_smtp isImap isSmtp
  rw [answerRow, if_neg noImap, if_pos isSmtp, refused_compare, smtpPassword]
  by_cases isPlain : headers.authMethod = some plain
  · rw [if_pos isPlain]
    constructor
    · intro differs
      refine ⟨⟨fun isImap => absurd isImap noImap, fun isImap => absurd isImap noImap, ?_⟩, ?_⟩
      · rintro (⟨isImap, _⟩ | ⟨_, noPlain⟩)
        · exact absurd isImap noImap
        · exact absurd isPlain noPlain
      · rintro (⟨_, _, same⟩ | ⟨isImap, _⟩)
        · rw [differs] at same
          simp at same
        · exact noImap isImap
    · intro refused
      refine Bool.eq_false_iff.mpr fun same => ?_
      exact refused.absent (.inl ⟨.inr isSmtp, isPlain, same⟩)
  · -- CRAM-MD5 is nothing special here
    rw [if_neg isPlain, equals_str, decide_eq_false_iff_not]
    constructor
    · intro some_
      refine ⟨⟨fun isImap => absurd isImap noImap, fun isImap => absurd isImap noImap,
        fun _ => some_⟩, ?_⟩
      rintro (⟨_, isPlain', _⟩ | ⟨isImap, _⟩)
      · exact isPlain isPlain'
      · exact noImap isImap
    · exact fun refused => refused.known (.inr ⟨isSmtp, isPlain⟩)

theorem refused_answerRow_iff (envDic : EnvDic) (headers : Headers) :
    Refused (answerRow hexdigest envDic row headers) ↔ RowRefused hexdigest envDic row headers := by
  by_cases isImap : headers.authProtocol = some imap
  · by_cases port : ∃ text n, envDic (ascii "EMAIL_MX_IMAP_PORT") = some text ∧ pyInt text = some n
    · obtain ⟨text, n, configured, parsed⟩ := port
      exact refused_imap_iff hexdigest row envDic isImap text n configured parsed
    · refine iff_of_false ?_ fun refused => port (refused.port isImap)
      -- without a port the handler ends with an exception, and no answer is sent
      have raised : answerRow hexdigest envDic row headers = none := by
        rw [answerRow, if_pos isImap]
        cases configured : envDic (ascii "EMAIL_MX_IMAP_PORT") with
        | none => rfl
        | some text =>
          cases parsed : pyInt text with
          | none => simp [parsed]
          | some n => exact absurd ⟨text, n, configured, parsed⟩ port
      rw [raised]
      exact not_refused_none
  · by_cases isSmtp : headers.authProtocol = some smtp
    · exact refused_smtp_iff hexdigest row envDic isSmtp
    · rw [answerRow, if_neg isImap, if_neg isSmtp]
      refine iff_of_true refused_invalidProtocol ⟨⟨fun isImap' => absurd isImap' isImap,
        fun isImap' => absurd isImap' isImap, ?_⟩, ?_⟩
      · rintro (⟨isImap', _⟩ | ⟨isSmtp', _⟩)
        · exact absurd isImap' isImap
        · exact absurd isSmtp' isSmtp
      · rintro (⟨isImap' | isSmtp', _⟩ | ⟨isImap', _⟩)
        · exact isImap isImap'
        · exact isSmtp isSmtp'
        · exact isImap isImap'

end Branches

/-! ### Requests -/

theorem permitted_of_names (db : Database) (headers : Headers) (user : User)
    (member : user ∈ db.users) (presents : Presents hexdigest user.row headers)
    (names : Names headers user) :
    Permitted hexdigest db headers user := by
  refine ⟨?_, member, names.named, ?_⟩
  · rcases presents with ⟨protocol, _⟩ | ⟨isImap, _⟩
    · exact protocol
    · exact .inl isImap
  · rcases presents with ⟨_, isPlain, same⟩ | ⟨_, isCram, enKey, key, same⟩
    · refine .inl ⟨isPlain, ?_⟩
      cases pass : headers.authPass with
      | none =>
        rw [pass] at same
        simp [User.row, PyValue.equals] at same
      | some header =>
        rw [pass, User.row, PyValue.equals, Bool.and_eq_true, decide_eq_true_eq] at same
        rw [same.1]
    · refine .inr ⟨isCram, ?_⟩
      obtain ⟨salt, salted⟩ := Option.ne_none_iff_exists'.mp (names.salted isCram)
      refine ⟨salt, salted, ?_⟩
      rw [User.row, PyValue.toStr] at key
      split at key
      · rw [same, ← Option.some.inj key, salted, getEncWithHmacMD5, Option.getD_some]
      · simp at key

theorem getCnx_eq {envDic : EnvDic} {db conns : Database}
    (connected : getCnx envDic db = some conns) :
    conns = db := by
  simp only [getCnx, Option.bind_eq_bind, Option.bind_eq_some_iff] at connected
  obtain ⟨_, _, _, _, _, _, _, _, _, _, _, _, open_⟩ := connected
  split at open_
  · exact (Option.some.inj open_).symm
  · cases open_

/-- What is asked is the statement for the text of the request. -/
theorem authUser_eq {envDic : EnvDic} {db : Database} (configured : Configured envDic db)
    (headers : Headers) : authUser envDic headers.authUser db =
      match db.execute (db.statement headers.text) with
      | .raises => none
      | .nothing => some none
      | .row row => some (some row) := by
  rw [authUser, configured.database, configured.table]
  rfl

/-- The answer is a failure exactly when the database answers and the row that it hands back, if
any, makes it one. -/
theorem refused_doGet_iff {envDic : EnvDic} {db : Database} (configured : Configured envDic db)
    (headers : Headers) :
    Refused (doGet hexdigest envDic db headers) ↔
      (getCnx envDic db).isSome ∧
        match db.execute (db.statement headers.text) with
        | .raises => False
        | .nothing => True
        | .row row => RowRefused hexdigest envDic row headers := by
  rw [doGet]
  cases connected : getCnx envDic db with
  | none => exact iff_of_false not_refused_none (by simp)
  | some conns =>
    obtain rfl := getCnx_eq connected
    simp only [Option.bind_eq_bind, Option.bind_some, authUser_eq configured, Option.isSome_some,
      true_and]
    cases conns.execute (conns.statement headers.text) with
    | raises => exact iff_of_false not_refused_none id
    -- no row is selected: the answer is that for a wrong password
    | nothing => exact iff_of_true refused_invalidLogin trivial
    | row row => exact refused_answerRow_iff hexdigest row envDic headers

/-- Nobody is permitted, so a guarded request is one that the row, if there is one, refuses. -/
theorem refused_iff_guarded {envDic : EnvDic} {db : Database} (headers : Headers)
    (nobody : ¬ ∃ user, Permitted hexdigest db headers user) :
    (match db.execute (db.statement headers.text) with
      | .raises => False
      | .nothing => True
      | .row row => RowRefused hexdigest envDic row headers) ↔
      Guarded hexdigest envDic db headers := by
  have absent (user : User) (member : user ∈ db.users)
      (own : Presents hexdigest user.row headers → Names headers user) :
      ¬ Presents hexdigest user.row headers := fun presents =>
    nobody ⟨user, permitted_of_names hexdigest db headers user member presents (own presents)⟩
  constructor
  · intro refused
    have taken : db.execute (db.statement headers.text) ≠ .raises := by
      intro raises
      rw [raises] at refused
      exact refused
    rcases Database.reads_of_execute taken with ⟨name, reads, readable⟩ | early
    · by_cases known : ∃ user ∈ db.users, db.same user.userName name = true
      · obtain ⟨user, member, same⟩ := known
        rw [Database.execute_user reads readable member same] at refused
        exact .user name user reads readable member same refused.toRowGuarded
          fun presents => absurd presents refused.absent
      · refine .nobody name reads readable fun user member => ?_
        by_contra same
        exact known ⟨user, member, by simpa using same⟩
    · rw [Database.execute_early early] at refused
      cases other : db.other (db.statement headers.text) with
      | raises =>
        rw [other] at refused
        exact refused.elim
      | nothing => exact .earlyNothing early other
      | row row =>
        rw [other] at refused
        exact .earlyRow row early other refused.toRowGuarded
          fun presents => absurd presents refused.absent
  · intro guarded
    cases guarded with
    | nobody name reads readable nobody =>
      rw [Database.execute_nobody reads readable nobody]; trivial
    | user name user reads readable member same answers own =>
      rw [Database.execute_user reads readable member same]
      exact ⟨answers, absent user member own⟩
    | earlyNothing early nothing => rw [Database.execute_early early, nothing]; trivial
    | earlyRow row early selected answers own =>
      rw [Database.execute_early early, selected]
      refine ⟨answers, fun presents => ?_⟩
      obtain ⟨user, member, rfl, names⟩ := own presents
      exact nobody ⟨user, permitted_of_names hexdigest db headers user member presents names⟩

/-- A request is judged as it should be exactly when it is permitted, or the database can be reached
and the text of the request is guarded. -/
theorem doGet_iff (envDic : EnvDic) (db : Database) (configured : Configured envDic db)
    (headers : Headers) :
    Judged hexdigest envDic db headers ↔
      (∃ user, Permitted hexdigest db headers user) ∨
        ((getCnx envDic db).isSome ∧ Guarded hexdigest envDic db headers) := by
  by_cases permitted : ∃ user, Permitted hexdigest db headers user
  · exact iff_of_true ⟨fun _ _ _ => permitted, fun none_ => absurd permitted none_⟩ (.inl permitted)
  · rw [or_iff_right permitted, ← refused_iff_guarded hexdigest headers permitted,
      ← refused_doGet_iff hexdigest configured]
    constructor
    · exact fun judged => judged.refused permitted
    · refine fun refused => ⟨fun r answered ok => ?_, fun _ => refused⟩
      rw [answered] at refused
      exact absurd refused (not_refused_of_ok ok)

end Handler

/-! ### A method that is not known -/

def bob : User where
  userName := ascii "bob"
  userPwd := ascii "secret"
  userLoginId := ascii "bob01"
  fixedLoginPwd := ascii "fixed"
  imapServIp := ascii "10.0.0.1"
  hasPwd := by decide

def mailDB : Database where
  database := ascii "mailDB"
  table := ascii "authTbl"
  users := [bob]
  same a b := a = b
  readable := isAscii
  other _ := .raises
  connects _ := true
  refl := by simp
  unique := by
    intro name a memberA b memberB _ _
    rw [List.mem_singleton] at memberA memberB
    rw [memberA, memberB]

def mailAuthConf : EnvDic := fun key =>
  [(ascii "DB_USER", ascii "batch_bizdb"), (ascii "DB_PASSWORD", ascii "bizdb"),
    (ascii "DB_HOST", ascii "127.0.0.1"),
    (ascii "DB_PORT", ascii "3306"), (ascii "DB_NAME", ascii "mailDB"),
    (ascii "TABLE_NAME", ascii "authTbl"), (ascii "EMAIL_MX_IMAP_PORT", ascii "243")].lookup key

theorem configured_mailAuthConf : Configured mailAuthConf mailDB := ⟨by decide, by decide⟩

/-- Bob's name, and not his password. -/
theorem doGet_iff_wrong : Judged (fun _ message => message) mailAuthConf mailDB
    ⟨some (ascii "bob"), some imap, some plain, none, some (ascii "guess")⟩ := by
  refine (doGet_iff (fun _ message => message) mailAuthConf mailDB configured_mailAuthConf _).mpr
    (.inr
      ⟨by decide, .user (ascii "bob") bob (by decide) (by decide) (by simp [mailDB])
      (by decide) ?_ ?_⟩)
  · exact ⟨fun _ => ⟨ascii "243", 243, by decide, by decide⟩, by decide, fun _ => by decide⟩
  · rintro (⟨_, _, same⟩ | ⟨_, cram, _⟩)
    · exact absurd same (by decide)
    · exact absurd cram (by decide)

/-- Bob's name, and an empty password by another method. -/
def unknownMethod : Headers :=
  ⟨some (ascii "bob"), some imap, some (ascii "apop"), none, some []⟩

theorem doGet_unknownMethod :
    doGet (fun _ message => message) mailAuthConf mailDB unknownMethod =
        some (success bob.row (.unicode (ascii "10.0.0.1")) 243) ∧
      ¬ Judged (fun _ message => message) mailAuthConf mailDB unknownMethod := by
  have letIn : doGet (fun _ message => message) mailAuthConf mailDB unknownMethod =
      some (success bob.row (.unicode (ascii "10.0.0.1")) 243) := by
    decide +kernel
  refine ⟨letIn, fun judged => ?_⟩
  obtain ⟨user, permitted⟩ := judged.letIn _ letIn (status_success _ _ _)
  rcases permitted.presented with ⟨isPlain, _⟩ | ⟨isCram, _⟩
  · exact absurd isPlain (by decide)
  · exact absurd isCram (by decide)

end MailAuth
