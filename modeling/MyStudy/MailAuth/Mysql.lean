import MyStudy.Lib.SqlString

/-!
# The user table

What the database makes of a statement that asks for one user name. The name stands in the statement
as a string literal, which the text put there may end early.
-/
namespace MailAuth

open SqlString (ReadsAs EndsEarly)

/-! ### Values -/

/-- A value of the program: header texts are byte strings, the columns come back decoded. -/
inductive PyValue where
  | none
  | str (text : Bytes)
  | unicode (utf8 : Bytes)
  | int (n : Int)
  | other (text : Bytes)
  deriving DecidableEq, Repr

def isAscii (text : Bytes) : Bool := text.all (· < 128)

/-- `==` with a header. A byte string that is not ASCII differs from all decoded texts. -/
def PyValue.equals : PyValue → Option Bytes → Bool
  | .none, Option.none => true
  | .str text, some header => text = header
  | .unicode utf8, some header => utf8 = header && isAscii header
  | _, _ => false

/-! ### The database -/

abbrev quote : UInt8 := '\''.toUInt8

structure User where
  userName : Bytes
  userPwd : Bytes
  userLoginId : Bytes
  fixedLoginPwd : Bytes
  imapServIp : Bytes
  hasPwd : userPwd ≠ []

/-- A row as it is fetched. -/
structure Row where
  userName : PyValue
  userPwd : PyValue
  userLoginId : PyValue
  fixedLoginPwd : PyValue
  imapServIp : PyValue
  deriving DecidableEq, Repr

def User.row (user : User) : Row :=
  ⟨.unicode user.userName, .unicode user.userPwd, .unicode user.userLoginId,
    .unicode user.fixedLoginPwd,
    .unicode user.imapServIp⟩

inductive Selection where
  | raises
  | nothing
  | row (row : Row)
  deriving DecidableEq, Repr

structure Configs where
  user : Bytes
  password : Bytes
  host : Bytes
  port : Int
  database : Bytes

/-- A database with the table of the users. `same` is the comparison of the collation that the
column has, `readable` tells the texts of its character set, and `other` is what comes of any
statement but the one that asks for a name. -/
structure Database where
  database : Bytes
  table : Bytes
  users : List User
  same : Bytes → Bytes → Bool
  readable : Bytes → Bool
  other : Bytes → Selection
  connects : Configs → Bool
  refl : ∀ name, same name name = true
  -- the primary key
  unique : ∀ name, ∀ a ∈ users, ∀ b ∈ users, same a.userName name = true →
    same b.userName name = true →
    a = b

def lstCol : List Bytes :=
  [ascii "user_name", ascii "user_pwd", ascii "user_login_id", ascii "fixed_login_pwd",
    ascii "imap_serv_ip"]

/-- The statement up to the name, with its opening quote. -/
def sqlHead (database table : Bytes) : Bytes :=
  ascii "select " ++ (ascii ",").intercalate lstCol ++ ascii " from " ++ database ++
    ascii "." ++ table ++
    ascii " where user_name='"

namespace Database

variable (db : Database)

/-- The row that is named so for the collation. -/
def find (name : Bytes) : Selection :=
  if db.readable name then
    match db.users.find? fun user => db.same user.userName name with
    | some user => .row user.row
    | none => .nothing
  else .raises

/-- What a statement selects. -/
def execute (strSql : Bytes) : Selection :=
  if sqlHead db.database db.table <+: strSql then
    match SqlString.read quote (strSql.drop (sqlHead db.database db.table).length) with
    | some (name, []) => db.find name
    | none => .raises
    | some (_, _ :: _) => db.other strSql
  else db.other strSql

/-! ### Texts -/

variable {db} {text name : Bytes}

/-- The statement for a text. -/
def statement (db : Database) (text : Bytes) : Bytes :=
  sqlHead db.database db.table ++ text ++ [quote]

theorem execute_statement : db.execute (db.statement text) =
    match SqlString.read quote (text ++ [quote]) with
    | some (name, []) => db.find name
    | none => .raises
    | some (_, _ :: _) => db.other (db.statement text) := by
  have head : sqlHead db.database db.table <+: db.statement text := by
    rw [statement, List.append_assoc]
    exact List.prefix_append _ _
  have rest : (db.statement text).drop (sqlHead db.database db.table).length = text ++ [quote] := by
    rw [statement, List.append_assoc, List.drop_left]
  rw [execute, if_pos head, rest]

/-- The name that the text stands for is that of a user, for the collation. -/
theorem execute_user {user : User} (reads : ReadsAs quote text name)
    (readable : db.readable name = true) (member : user ∈ db.users)
    (same : db.same user.userName name = true) :
    db.execute (db.statement text) = .row user.row := by
  rw [execute_statement, reads]
  simp only
  rw [find, if_pos readable]
  cases found : db.users.find? fun other => db.same other.userName name with
  | none => exact absurd same (by simpa using List.find?_eq_none.mp found user member)
  | some other =>
    have equal := db.unique name other (List.mem_of_find?_eq_some found) user member
      (by simpa using List.find?_some found) same
    rw [equal]

theorem execute_nobody (reads : ReadsAs quote text name) (readable : db.readable name = true)
    (nobody : ∀ user ∈ db.users, db.same user.userName name = false) :
    db.execute (db.statement text) = .nothing := by
  have none_ : (db.users.find? fun user => db.same user.userName name) = none :=
    List.find?_eq_none.mpr fun user member => by simp [nobody user member]
  rw [execute_statement, reads]
  simp only
  rw [find, if_pos readable, none_]

theorem execute_early (early : EndsEarly quote text) :
    db.execute (db.statement text) = db.other (db.statement text) := by
  obtain ⟨value, c, rest, read⟩ := early
  rw [execute_statement, read]

/-- A statement that is taken has a text that ends its literal, at its own end for a name that the
database can read, or before. -/
theorem reads_of_execute (taken : db.execute (db.statement text) ≠ .raises) :
    (∃ name, ReadsAs quote text name ∧ db.readable name = true) ∨ EndsEarly quote text := by
  rw [execute_statement] at taken
  cases read : SqlString.read quote (text ++ [quote]) with
  | none =>
    rw [read] at taken
    exact absurd rfl taken
  | some literal =>
    obtain ⟨name, rest⟩ := literal
    cases rest with
    | cons c rest => exact .inr ⟨name, c, rest, read⟩
    | nil =>
      rw [read] at taken
      refine .inl ⟨name, read, ?_⟩
      by_contra unreadable
      exact taken (if_neg unreadable)

end Database

end MailAuth
