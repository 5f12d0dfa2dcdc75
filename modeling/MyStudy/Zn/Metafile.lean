import MyStudy.Zn.Misc

/-!
# Meta files

The texts `{"key":value,...}` that describe a mail, and the record the migration keeps of one.
-/
namespace Zn

/-- The first `c` of a text that does not stand between double quotes. -/
def findNonliteralFrom (c : UInt8) (quoteFlag : Bool) : Bytes → Option Nat
  | [] => none
  | b :: text =>
    -- a quote opens or closes a literal, and is never the character searched for
    if b = '"'.toUInt8 then (findNonliteralFrom c (!quoteFlag) text).map (· + 1)
    else if b = c && !quoteFlag then some 0
    else (findNonliteralFrom c quoteFlag text).map (· + 1)

def findNonliteral (text : Bytes) (c : UInt8) : Option Nat :=
  if c = '"'.toUInt8 then none else findNonliteralFrom c false text

/-! ### `zn_metafile` -/

structure Metafile where
  /-- The map `_meta`, each key once, in the order in which they were inserted. -/
  values : List (Bytes × Bytes)
  isRead : Bool
  date : Bytes
  id : Int
  folderId : Int
  deriving DecidableEq, Repr

namespace Metafile

def init : Metafile := ⟨[], false, [], 0, 0⟩

def getValue (m : Metafile) (key : Bytes) : Bytes := (m.values.lookup key).getD []

/-- `_meta.insert`: a key that is there keeps its value. -/
def insert (m : Metafile) (key value : Bytes) : Metafile :=
  if (m.values.lookup key).isSome then m else { m with values := m.values ++ [(key, value)] }

/-- One `key:value` pair; a text without a colon is passed over. -/
def loadPair (m : Metafile) (kvPair : Bytes) : Metafile :=
  match kvPair.findIdx? (· = ':'.toUInt8) with
  | some pos =>
    m.insert ((kvPair.take pos).filter (· ≠ '"'.toUInt8))
      ((kvPair.drop (pos + 1)).filter (· ≠ '"'.toUInt8))
  | none => m

/-- The loop of `load_meta`. A round takes a pair and its comma off the text, so as many rounds as
bytes are enough. -/
def loadPairs : Nat → Metafile → Bytes → Metafile
  | 0, m, _ => m
  | rounds + 1, m, buf =>
    match findNonliteral buf ','.toUInt8 with
    | some pos => loadPairs rounds (m.loadPair (buf.take pos)) (buf.drop (pos + 1))
    | none => m

/-- `load_meta`. The text without its first and its last two bytes is the range from the iterator
`begin() + 1` to `end() - 2`: a text of one or two bytes makes the constructor throw. -/
def loadMeta (uninit : Int) (m : Metafile) (content : Bytes) : Option (Metafile × Bool) :=
  if content.length = 0 then some (m, false)
  else if content.length < 3 then none
  else
    -- every pair is read up to a comma, so one is added for the last
    let buf := (content.drop 1).take (content.length - 3) ++ [','.toUInt8]
    let m := loadPairs buf.length m buf
    some ({ m with
      isRead := m.getValue (ascii "unread") ≠ ascii "0"
      date := m.getValue (ascii "date")
      id := fromStringInt uninit (m.getValue (ascii "id"))
      folderId := fromStringInt uninit (m.getValue (ascii "folder_id")) }, true)

/-- The same map and the same fields. The pairs of a map stand in no order of their own. -/
structure Same (m m' : Metafile) : Prop where
  values : ∀ key, m.values.lookup key = m'.values.lookup key
  isRead : m.isRead = m'.isRead
  date : m.date = m'.date
  id : m.id = m'.id
  folderId : m.folderId = m'.folderId

theorem Same.refl (m : Metafile) : Same m m := ⟨fun _ => rfl, rfl, rfl, rfl, rfl⟩

theorem Same.symm {m m' : Metafile} (same : Same m m') : Same m' m :=
  ⟨fun key => (same.values key).symm, same.isRead.symm, same.date.symm, same.id.symm,
    same.folderId.symm⟩

theorem Same.trans {m m' m'' : Metafile} (same : Same m m') (same' : Same m' m'') : Same m m'' :=
  ⟨fun key => (same.values key).trans (same'.values key), same.isRead.trans same'.isRead,
    same.date.trans same'.date, same.id.trans same'.id, same.folderId.trans same'.folderId⟩

theorem Same.getValue {m m' : Metafile} (same : Same m m') (key : Bytes) :
    m.getValue key = m'.getValue key := by
  rw [Metafile.getValue, Metafile.getValue, same.values]

/-- The loop of `load_meta` ends by itself: any rounds that are enough for the bytes give the same
record. -/
theorem loadPairs_enough (rounds rounds' : Nat) (m : Metafile) (buf : Bytes)
    (enough : buf.length ≤ rounds) (enough' : buf.length ≤ rounds') :
    loadPairs rounds m buf = loadPairs rounds' m buf := by
  have nothing (n : Nat) (m : Metafile) : loadPairs n m [] = m := by cases n <;> rfl
  induction rounds generalizing rounds' m buf with
  | zero =>
    rw [List.eq_nil_of_length_eq_zero (Nat.le_zero.mp enough), nothing, nothing]
  | succ rounds ih =>
    cases rounds' with
    | zero => rw [List.eq_nil_of_length_eq_zero (Nat.le_zero.mp enough'), nothing, nothing]
    | succ rounds' =>
      rw [loadPairs, loadPairs]
      cases found : findNonliteral buf ','.toUInt8 with
      | none => rfl
      | some pos =>
        exact ih rounds' _ _ (by rw [List.length_drop]; omega) (by rw [List.length_drop]; omega)

end Metafile

end Zn
