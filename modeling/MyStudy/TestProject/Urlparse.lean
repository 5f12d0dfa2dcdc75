import MyStudy.Lib.Bytes

/-!
# URLs

The parts of the standard modules `urlparse` and `os.path` that `crawl.py` works with, for byte
strings. What raises `ValueError` there is `none` here.
-/
namespace TestProject

/-- The text before the first of these characters, and the text behind it. -/
def cut (c : UInt8) (url : Bytes) : Bytes × Bytes :=
  (url.takeWhile (· ≠ c), (url.dropWhile (· ≠ c)).drop 1)

/-- The text before the last of these characters, and the text from it on. -/
def cutLast (c : UInt8) (path : Bytes) : Option (Bytes × Bytes) :=
  if c ∈ path then
    some ((path.reverse.dropWhile (· ≠ c)).reverse.dropLast,
      c :: (path.reverse.takeWhile (· ≠ c)).reverse)
  else none

def lower (text : Bytes) : Bytes := text.map fun c => if 65 ≤ c ∧ c ≤ 90 then c + 32 else c

/-! ### `urlparse` -/

structure SplitResult where
  scheme : Bytes
  netloc : Bytes
  path : Bytes
  query : Bytes
  fragment : Bytes

structure ParseResult extends SplitResult where
  params : Bytes

def usesRelative : List Bytes :=
  ["ftp", "http", "gopher", "nntp", "imap", "wais", "file", "https", "shttp", "mms", "prospero",
    "rtsp", "rtspu", "",
    "sftp", "svn", "svn+ssh"].map ascii

def usesNetloc : List Bytes :=
  ["ftp", "http", "gopher", "nntp", "telnet", "imap", "wais", "file", "mms", "https", "shttp",
    "snews", "prospero",
    "rtsp", "rtspu", "rsync", "", "svn", "svn+ssh", "sftp", "nfs", "git", "git+ssh"].map ascii

def usesParams : List Bytes :=
  ["ftp", "hdl", "prospero", "http", "imap", "https", "shttp", "rtsp", "rtspu", "sip", "sips",
    "mms", "", "sftp",
    "tel"].map ascii

/-- `scheme_chars` -/
def schemeChar (c : UInt8) : Bool :=
  (97 ≤ c && c ≤ 122) || (65 ≤ c && c ≤ 90) || isDigit c || c == 43 || c == 45 || c == 46

/-- The end of a host: one of `/?#`. -/
def netlocEnd (c : UInt8) : Bool := c == 47 || c == 63 || c == 35

def splitNetloc (url : Bytes) : Bytes × Bytes :=
  (url.takeWhile fun c => !netlocEnd c, url.dropWhile fun c => !netlocEnd c)

/-- What comes behind the scheme. -/
def splitRest (scheme url : Bytes) : Option SplitResult :=
  let (netloc, url) := if url.take 2 = [47, 47] then splitNetloc (url.drop 2) else ([], url)
  if ((91 : UInt8) ∈ netloc ∧ 93 ∉ netloc) ∨ ((93 : UInt8) ∈ netloc ∧ 91 ∉ netloc) then none
  else
    let (url, fragment) := cut 35 url
    let (url, query) := cut 63 url
    some { scheme, netloc, path := url, query, fragment }

def urlsplit (url scheme : Bytes) : Option SplitResult :=
  let (head, rest) := cut 58 url
  if (58 : UInt8) ∈ url ∧ head ≠ [] then
    if head = ascii "http" then splitRest head rest
    -- digits only are a port
    else if head.all schemeChar ∧ (rest = [] ∨ ¬ rest.all isDigit) then splitRest (lower head) rest
    else splitRest scheme url
  else splitRest scheme url

/-- `_splitparams`: the parameters of the last segment. -/
def splitParams (url : Bytes) : Bytes × Bytes :=
  match cutLast 47 url with
  | some (front, segment) => (front ++ (cut 59 segment).1, (cut 59 segment).2)
  | none => cut 59 url

def urlparse (url scheme : Bytes) : Option ParseResult :=
  (urlsplit url scheme).map fun parts =>
    if usesParams.contains parts.scheme ∧ (59 : UInt8) ∈ parts.path then
      let (path, params) := splitParams parts.path
      { parts with path, params }
    else { parts with params := [] }

def urlunparse (parts : ParseResult) : Bytes :=
  let url := if parts.params ≠ [] then parts.path ++ 59 :: parts.params else parts.path
  let url :=
    if parts.netloc ≠ [] ∨
      (parts.scheme ≠ [] ∧ usesNetloc.contains parts.scheme ∧ url.take 2 ≠ [47, 47]) then
      let url := if url ≠ [] ∧ url.take 1 ≠ [47] then 47 :: url else url
      [47, 47] ++ parts.netloc ++ url
    else url
  let url := if parts.scheme ≠ [] then parts.scheme ++ 58 :: url else url
  let url := if parts.query ≠ [] then url ++ 63 :: parts.query else url
  if parts.fragment ≠ [] then url ++ 35 :: parts.fragment else url

/-- The first `..` that has a segment to take away in front of it, and is not the last segment. -/
def removeUp : List Bytes → Option (List Bytes)
  | a :: b :: c :: segments =>
    if b = ascii ".." ∧ a ≠ [] ∧ a ≠ ascii ".." then some (c :: segments)
    else (removeUp (b :: c :: segments)).map (a :: ·)
  | _ => none

/-- The loop that takes them away. Every turn takes away two segments. -/
def removeUps : Nat → List Bytes → List Bytes
  | 0, segments => segments
  | turns + 1, segments =>
    match removeUp segments with
    | some segments => removeUps turns segments
    | none => segments

/-- The path of a relative link: the segments of the page's path without its last, and those of the
link. -/
def joinPath (bpath path : Bytes) : Bytes :=
  let segments := (bpath.splitOn 47).dropLast ++ path.splitOn 47
  let segments :=
    if segments.getLast? = some (ascii ".") then segments.dropLast ++ [[]] else segments
  let segments := segments.filter (· ≠ ascii ".")
  let segments := removeUps segments.length segments
  let segments :=
    if segments = [[], ascii ".."] then [[], []]
    else if segments.length ≥ 2 ∧ segments.getLast? =
      some (ascii "..") then segments.dropLast.dropLast ++ [[]]
    else segments
  [47].intercalate segments

def urljoin (base url : Bytes) : Option Bytes :=
  if base = [] then some url
  else if url = [] then some base
  else
    (urlparse base []).bind fun b =>
    (urlparse url b.scheme).map fun parts =>
      if parts.scheme ≠ b.scheme ∨ ¬ usesRelative.contains parts.scheme then url
      else if usesNetloc.contains parts.scheme ∧ parts.netloc ≠ [] then urlunparse parts
      else
        let parts :=
          { parts with
            netloc := if usesNetloc.contains parts.scheme then b.netloc else parts.netloc }
        if parts.path.take 1 = [47] then urlunparse parts
        else if parts.path = [] ∧ parts.params = [] then
          urlunparse { parts with
            path := b.path, params := b.params, query :=
              if parts.query = [] then b.query else parts.query }
        else urlunparse { parts with path := joinPath b.path parts.path }

/-! ### `os.path` -/

/-- The extension with its dot. Dots in front of a file name start no extension. -/
def splitext (path : Bytes) : Bytes :=
  let name := ((path.reverse.takeWhile (· ≠ 47)).reverse).dropWhile (· = 46)
  match cutLast 46 name with
  | some (_, ext) => ext
  | none => []

/-- `os.path.join`, of two paths. -/
def join (a b : Bytes) : Bytes :=
  if b.take 1 = [47] then b else if a = [] ∨ a.getLast? = some 47 then a ++ b else a ++ 47 :: b

end TestProject
