import MyStudy.SimNsim.CommonTools
import MyStudy.Zn.Misc

/-!
# The configuration of the simulator

`Configuration::loadConfig` and the three loops it hands its stream to. A loop that meets the header
of the next section has taken it from the stream, and nobody looks at it again.
-/
namespace SimNsim

/-! ### Lines -/

def configLineMax : Nat := 1024

/-- What `getline` delivers until it fails: the lines of a text, given what the buffer holds
already. A line that does not fit into the buffer fails, and with the stream all later reads. -/
def readLines : Bytes → Bytes → List Bytes
  | buf, [] => if buf = [] then [] else [buf]
  | buf, c :: rest =>
    if c = lf then buf :: readLines [] rest
    else if buf.length = configLineMax - 1 then []
    else readLines (buf ++ [c]) rest

/-- What the loops for the sections make of a line. -/
inductive Line where
  | comment
  | stop
  | item (key value : Bytes)
  | malformed
  | undefined
  deriving DecidableEq, Repr

/-- `key=value`, with blanks around both. -/
def parseItem (strLine : Bytes) : Line :=
  match strLine.idxOf? '='.toUInt8 with
  | none => .malformed
  | some pos =>
    match trim (strLine.take pos), trim (strLine.drop (pos + 1)) with
    | some key, some value => if key = [] || value = [] then .malformed else .item key value
    | _, _ => .undefined

def parseLine (line : Bytes) : Line :=
  match trim (cstr line) with
  | none => .undefined
  | some strLine =>
    if strLine.head? = some '#'.toUInt8 then .comment
    -- an empty line ends the section, and so does the header of the next one
    else if strLine = [] || strLine.head? = some '['.toUInt8 then .stop
    else parseItem strLine

/-- How loading fails: it returns false, `substr` throws, or a text is read beyond its end. -/
inductive LoadError where
  | refused
  | thrown
  | undefined
  deriving DecidableEq, Repr

/-- The loop that the functions for the sections have in common; `store` keeps one item. The lines
that are left go back to the caller. -/
def sectionLoop {α : Type} (store : α → Bytes → Bytes → Except LoadError α) :
    α → List Bytes → Except LoadError (α × List Bytes)
  | a, [] => .ok (a, [])
  | a, line :: lines =>
    match parseLine line with
    | .comment => sectionLoop store a lines
    | .stop => .ok (a, lines)
    | .item key value =>
      match store a key value with
      | .ok a => sectionLoop store a lines
      | .error e => .error e
    | .malformed => .error .refused
    | .undefined => .error .undefined

/-! ### Sections -/

structure Command where
  id : Bytes
  name : Bytes
  type : UInt8
  cmd : Bytes
  deriving DecidableEq, Repr

/-- The members; `none` for a timer that is not set yet and a log that is not open. A map is the
list of its pairs in the order of their insertion. -/
structure Configuration where
  port : Bytes
  log : Option Bytes
  strConnect : Bytes
  strDisconnect : Bytes
  strLogout : Bytes
  exeTimer : Option Int
  mapCmd : List (Bytes × Command)
  mapCmdQue : List (Bytes × List Command)
  mapCmdQueCount : List (Bytes × Nat)
  deriving DecidableEq, Repr

def Configuration.initial : Configuration := ⟨[], none, [], [], [], none, [], [], []⟩

/-- `map::insert`, which leaves a key that is there as it is. -/
def mapInsert {α : Type} (m : List (Bytes × α)) (key : Bytes) (a : α) : List (Bytes × α) :=
  if key ∈ m.map Prod.fst then m else m ++ [(key, a)]

/-- The calls to the system and the library that loading and answering depend on. `sprintf` formats
two strings. -/
structure Host where
  gethostname : Option Bytes
  getlogin : Bytes
  opens : Bytes → Bool
  sprintf : Bytes → Bytes → Bytes → Bytes
  send : Bytes → Bool

/-- A machine where all goes well; what is sent is not looked at, and formats have no directives. -/
def plainHost : Host :=
  ⟨some (ascii "localhost"), ascii "user", fun _ => true, fun format _ _ => format,
  fun _ => true⟩

def serverPort : Bytes := ascii "server_port"
def logfilePath : Bytes := ascii "logfile_path"
def connectStr : Bytes := ascii "connect_str"
def disconnectStr : Bytes := ascii "disconnect_str"
def logoutStr : Bytes := ascii "logout_str"
def exetimer : Bytes := ascii "exe_timer"

/-- `sprintf` into the line buffer, which has to be large enough for the text and its end. -/
def formatLine (host : Host) (hostname value : Bytes) : Except LoadError Bytes :=
  let text := cstr (host.sprintf value hostname host.getlogin)
  if text.length < configLineMax then .ok text else .error .undefined

/-- An item of the section `[CONFIGURATION]`. -/
def storeSetting (host : Host) (hostname : Bytes) (conf : Configuration) (key value : Bytes) :
    Except LoadError Configuration :=
  if key = serverPort then .ok { conf with port := value }
  else if key = logfilePath then
    match conf.log with
    -- a log that is open stays as it is
    | some _ => .ok conf
    | none => if host.opens value then .ok { conf with log := some value } else .error .refused
  else if key = connectStr then
    (formatLine host hostname value).map fun text => { conf with strConnect := text }
  else if key = disconnectStr then
    (formatLine host hostname value).map fun text => { conf with strDisconnect := text }
  else if key = logoutStr then .ok { conf with strLogout := value }
  else if key = exetimer then .ok { conf with exeTimer := some (Zn.atoi value) }
  else .error .refused

def loadConfigHead (host : Host) (conf : Configuration) (lines : List Bytes) :
    Except LoadError (Configuration × List Bytes) :=
  match host.gethostname with
  | none => .error .refused
  | some hostname => sectionLoop (storeSetting host hostname) conf lines

/-- An item of the section `[COMMANDS]`: the type, a character that is not looked at, and the
text. -/
def storeCommand (conf : Configuration) (key value : Bytes) : Except LoadError Configuration :=
  match value with
  | type :: _ :: cmd =>
    .ok { conf with mapCmd := mapInsert conf.mapCmd key ⟨ascii "unknown", key, type, cmd⟩ }
  -- `substr` from behind the end throws
  | _ => .error .thrown

def loadCommandHead (conf : Configuration) (lines : List Bytes) :
    Except LoadError (Configuration × List Bytes) :=
  sectionLoop storeCommand conf lines

abbrev star : UInt8 := '*'.toUInt8

/-- An item of a queue: the name of a command, which a star makes close the session. -/
def storeQueueItem (mapCmd : List (Bytes × Command)) (ques : List Command) (key value : Bytes) :
    Except LoadError (List Command) :=
  if value.getLast? = some star then
    match mapCmd.lookup value.dropLast with
    | some found => .ok (ques ++ [⟨key, value.dropLast, '2'.toUInt8, found.cmd⟩])
    | none => .error .refused
  else
    match mapCmd.lookup value with
    | some found => .ok (ques ++ [⟨key, value, found.type, found.cmd⟩])
    | none => .error .refused

def loadCommandQues (conf : Configuration) (lines : List Bytes) (head : Bytes) :
    Except LoadError (Configuration × List Bytes) :=
  match sectionLoop (storeQueueItem conf.mapCmd) [] lines with
  | .error e => .error e
  | .ok (ques, lines) =>
    let noBracketHead := (head.drop 1).dropLast
    .ok ({ conf with
      mapCmdQue := mapInsert conf.mapCmdQue noBracketHead ques
      mapCmdQueCount := mapInsert conf.mapCmdQueCount noBracketHead 0 }, lines)

/-! ### The file -/

def headConfig : Bytes := ascii "[CONFIGURATION]"
def headCommands : Bytes := ascii "[COMMANDS]"

/-- The function that a header calls for its section. -/
def loadSection (host : Host) (conf : Configuration) (lines : List Bytes) (strLine : Bytes) :
    Except LoadError (Configuration × List Bytes) :=
  if strLine = headConfig then loadConfigHead host conf lines
  else if strLine = headCommands then loadCommandHead conf lines
  else loadCommandQues conf lines strLine

/-- The loop of `loadConfig`. A round takes a line at least, so as many rounds as lines are
enough. -/
def loadLoop (host : Host) : Nat → Configuration → List Bytes → Except LoadError Configuration
  | 0, conf, _ => .ok conf
  | _ + 1, conf, [] => .ok conf
  | rounds + 1, conf, line :: lines =>
    match trim (cstr line) with
    | none => .error .undefined
    | some strLine =>
      if strLine = [] || strLine.head? = some '#'.toUInt8 then loadLoop host rounds conf lines
      else if strLine.head? ≠ some '['.toUInt8 || strLine.getLast? ≠ some ']'.toUInt8 then
        .error .refused
      else
        match loadSection host conf lines strLine with
        | .ok (conf, lines) => loadLoop host rounds conf lines
        | .error e => .error e

/-- `loadConfig` of a file, if it can be opened. -/
def loadConfig (host : Host) (file : Option Bytes) : Except LoadError Configuration :=
  match file with
  | none => .error .refused
  | some text => loadLoop host (readLines [] text).length .initial (readLines [] text)

end SimNsim
