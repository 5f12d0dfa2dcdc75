import MyStudy.Lib.Sax
import MyStudy.Zn.FolderXml

/-!
# A value of the local configuration

`zn_xml::_get_localconfig` looks for the `value` of one `key` element. Three handlers share two
flags and the value found so far.
-/
namespace Zn

/-! ### `_parse_xml` -/

/-- What comes of `XML_ParserCreate` and `XML_Parse`: the handlers' events, also those before an
error. -/
inductive XmlParse where
  | noParser
  | parsed (events : List Sax.Event)
  | failed (events : List Sax.Event) (line : Nat) (error : Bytes)

/-- How a use of the parser ends without a result. -/
inductive XmlFailure where
  | assertion
  /-- `attr` is read behind its end. -/
  | outOfRange
  | thrown (e : XmlException)
  deriving DecidableEq, Repr

/-- `_parse_xml` with all three handlers. A failed parse throws the line and the error of the
parser; the source asks the parser for both after it is freed. -/
def parseXmlText {σ : Type} (expat : Bytes → XmlParse)
    (handle : σ → Sax.Event → Except XmlFailure σ) (userData : σ) (xml : Bytes) :
    Except XmlFailure σ :=
  match expat xml with
  | .noParser => .error (.thrown (.what "Create parser error."))
  | .parsed events => Sax.run handle userData events
  | .failed events line error => do
    let _ ← Sax.run handle userData events
    throw (.thrown (.atLine line error))

/-! ### The handlers -/

/-- `zn_xml_localconfig`. -/
structure LocalconfigData where
  targetKeyName : Bytes
  elementValue : Bytes
  targetKeyFlag : Bool
  targetValueFlag : Bool
  deriving DecidableEq, Repr

abbrev keyTag : Bytes := ascii "key"

abbrev valueTag : Bytes := ascii "value"

def getLocalconfigStart (data : LocalconfigData) (el : Bytes) (attr : List Sax.Attr) :
    Except XmlFailure LocalconfigData :=
  if el = keyTag then
    -- `attr[1]` is the value of the first attribute
    match attr with
    | [] => .error .outOfRange
    | (_, value) :: _ =>
      if data.targetKeyName = value then .ok { data with targetKeyFlag := true } else .ok data
  else if data.targetKeyFlag = true ∧ el = valueTag then .ok { data with targetValueFlag := true }
  else .ok data

def getLocalconfigEnd (data : LocalconfigData) : LocalconfigData :=
  if data.targetKeyFlag || data.targetValueFlag then
    { data with targetKeyFlag := false, targetValueFlag := false }
  else data

def getLocalconfigValueHandler (data : LocalconfigData) (s : Bytes) :
    Except XmlFailure LocalconfigData :=
  if data.targetValueFlag then
    if data.elementValue.length = 0 then .ok { data with elementValue := data.elementValue ++ s }
    else .error .assertion
  else .ok data

def LocalconfigData.handle (data : LocalconfigData) : Sax.Event → Except XmlFailure LocalconfigData
  | .start el attr => getLocalconfigStart data el attr
  | .chars piece => getLocalconfigValueHandler data piece
  | .stop _ => .ok (getLocalconfigEnd data)

/-- `_get_localconfig`. -/
def getLocalconfig (expat : Bytes → XmlParse) (xml keyName : Bytes) : Except XmlFailure Bytes :=
  (parseXmlText expat LocalconfigData.handle ⟨keyName, [], false, false⟩ xml).map
    LocalconfigData.elementValue

/-! ### Documents -/

/-- A `key` element with its one `value`. Before, behind and inside that there may be other
elements, none of them a `key`. -/
structure KeyElement where
  attr : List Sax.Attr
  name : Bytes
  named : (ascii "name", name) ∈ attr
  attrDistinct : (attr.map Prod.fst).Nodup
  before : Sax.Content
  valueAttr : List Sax.Attr
  value : Sax.Content
  after : Sax.Content
  delivered : before.Delivered ∧ value.Delivered ∧ after.Delivered
  keyless : before.Without keyTag ∧ value.Without keyTag ∧ after.Without keyTag
  oneValue : valueTag ∉ before.children ++ after.children

/-- A configuration, with what is before the first key and what is behind each key. -/
structure LocalConfig where
  attr : List Sax.Attr
  lead : Sax.Content
  keys : List (KeyElement × Sax.Content)
  keyless : lead.Without keyTag ∧ ∀ key ∈ keys, key.2.Without keyTag
  distinct : (keys.map fun key => key.1.name).Nodup

def KeyElement.events (key : KeyElement) : List Sax.Event :=
  .start keyTag key.attr :: (key.before.events ++
    .start valueTag key.valueAttr :: (key.value.events ++
      .stop valueTag :: (key.after.events ++ [.stop keyTag])))

def keysEvents (keys : List (KeyElement × Sax.Content)) : List Sax.Event :=
  keys.flatMap fun key => key.1.events ++ key.2.events

def LocalConfig.events (doc : LocalConfig) : List Sax.Event :=
  .start (ascii "localconfig") doc.attr :: (doc.lead.events ++ (keysEvents doc.keys ++
    [.stop (ascii "localconfig")]))

/-- The value of a key. -/
def KeyElement.text (key : KeyElement) : Bytes := key.value.string

/-! ### What is taken for the value -/

/-- The first attribute of the key has this value. -/
def KeyElement.Opens (key : KeyElement) (target : Bytes) : Prop :=
  key.attr.head?.map Prod.snd = some target

instance (key : KeyElement) (target : Bytes) : Decidable (key.Opens target) :=
  inferInstanceAs (Decidable (_ = _))

/-- The pieces before the first end tag; as long as no `value` is open, those behind the first
`value` tag. -/
def heard (inValue : Bool) : Sax.Content → List Bytes
  | .nil => []
  | .text piece rest => if inValue then piece :: heard inValue rest else heard inValue rest
  | .element el _ inside _ => heard (inValue || decide (el = valueTag)) inside

/-- The pieces that are taken of a key: those of its value, if no element is before it. -/
def KeyElement.taken (key : KeyElement) : List Bytes :=
  if key.before.OnlyText then heard true key.value else heard false key.before

/-- The pieces that are taken of all keys whose first attribute has this value. -/
def takenOf (target : Bytes) (keys : List (KeyElement × Sax.Content)) : List Bytes :=
  keys.flatMap fun key => if key.1.Opens target then key.1.taken else []

/-- The name of the key is its first attribute, no element comes before its value, and no text of
the value comes behind an end tag inside it. -/
structure KeyElement.Reached (key : KeyElement) : Prop where
  opens : key.Opens key.name
  plain : key.before.OnlyText
  whole : heard true key.value = key.value.pieces

/-- When the value of a key is found. Where it is reached, it has to come in one piece, and nothing
may be taken of another key; where it is not, its text has to be the one that is taken in its
place. -/
structure LocalConfig.Finds (doc : LocalConfig) (key : KeyElement) : Prop where
  reached : key.Reached → key.value.pieces.length ≤ 1 ∧
    ∀ other ∈ doc.keys, other.1.name ≠ key.name → other.1.Opens key.name → other.1.taken = []
  missed : ¬ key.Reached → key.value.pieces = [] ∧ takenOf key.name doc.keys = [] ∨
    takenOf key.name doc.keys = [key.text]

/-! ### Runs -/

/-- What the assertion leaves of some pieces: it fails at a second one. -/
def takePieces : Bytes → List Bytes → Except XmlFailure Bytes
  | value, [] => .ok value
  | value, piece :: rest =>
    if value.length = 0 then takePieces (value ++ piece) rest else .error .assertion

theorem takePieces_append (value : Bytes) (pieces more : List Bytes) :
    takePieces value (pieces ++ more) =
      (takePieces value pieces).bind fun value' => takePieces value' more := by
  induction pieces generalizing value with
  | nil => rfl
  | cons piece rest ih =>
    rw [List.cons_append, takePieces, takePieces]
    split
    · exact ih _
    · rfl

/-- From nothing, one piece is what there may be. -/
theorem takePieces_empty (pieces : List Bytes) (delivered : ∀ piece ∈ pieces, piece ≠ []) :
    takePieces [] pieces = if pieces.length ≤ 1 then .ok pieces.flatten else .error .assertion := by
  match pieces with
  | [] => rfl
  | [piece] =>
    rw [List.flatten_singleton]
    rfl
  | piece :: next :: rest =>
    have some_ : piece.length ≠ 0 := by simpa using delivered piece List.mem_cons_self
    rw [if_neg (by simp), takePieces, if_pos List.length_nil, List.nil_append, takePieces,
      if_neg some_]

section Runs

variable {target value : Bytes}

/-- The start tag of another element than a key. -/
theorem start_child {el : Bytes} (data : LocalconfigData) (attr : List Sax.Attr)
    (other : el ≠ keyTag) :
    data.handle (.start el attr) =
      if data.targetKeyFlag = true ∧ el = valueTag then .ok { data with targetValueFlag := true }
      else .ok data :=
  if_neg other

/-- The start tag of a key. -/
theorem start_keyTag (data : LocalconfigData) (first : Sax.Attr) (rest : List Sax.Attr) :
    data.handle (.start keyTag (first :: rest)) =
      if data.targetKeyName = first.2 then .ok { data with targetKeyFlag := true }
      else .ok data := by
  change getLocalconfigStart data keyTag (first :: rest) = _
  rw [getLocalconfigStart.eq_def, if_pos rfl]

/-- Outside the key that is looked for, everything but another key is passed over. -/
theorem run_passed (content : Sax.Content) (keyless : content.Without keyTag) :
    Sax.run LocalconfigData.handle ⟨target, value, false, false⟩ content.events =
      .ok ⟨target, value, false, false⟩ := by
  induction content with
  | nil => rfl
  | text piece rest ih => exact ih keyless
  | element el attr inside rest ihInside ihRest =>
    have entered : LocalconfigData.handle ⟨target, value, false, false⟩ (.start el attr) =
        .ok ⟨target, value, false, false⟩ := by
      exact (start_child ⟨target, value, false, false⟩ attr keyless.1).trans
        (if_neg fun both => Bool.false_ne_true both.1)
    rw [Sax.Content.events, Sax.run_cons, entered]
    change Sax.run LocalconfigData.handle _ _ = _
    rw [Sax.run_append, ihInside keyless.2.1]
    exact ihRest keyless.2.2

/-- Whichever flags the inside of an element has left, its end tag clears them. -/
theorem stop_clears (el : Bytes) (onlyText : Prop) [Decidable onlyText] (inValue : Bool) :
    LocalconfigData.handle
        (if onlyText then ⟨target, value, true, inValue⟩ else ⟨target, value, false, false⟩)
        (.stop el) =
      .ok ⟨target, value, false, false⟩ := by
  split <;> rfl

/-- Inside that key: the pieces behind a `value` tag are taken, and the first end tag clears both
flags. -/
theorem run_heard (content : Sax.Content) (keyless : content.Without keyTag) (inValue : Bool) :
    Sax.run LocalconfigData.handle ⟨target, value, true, inValue⟩ content.events =
      (takePieces value (heard inValue content)).map fun value' =>
        if content.OnlyText then ⟨target, value', true, inValue⟩
        else ⟨target, value', false, false⟩ := by
  induction content generalizing value inValue with
  | nil => rfl
  | text piece rest ih =>
    rw [Sax.Content.events, Sax.run_cons]
    change (getLocalconfigValueHandler ⟨target, value, true, inValue⟩ piece).bind _ = _
    rw [getLocalconfigValueHandler, heard]
    cases inValue with
    | false => exact ih keyless false
    | true =>
      rw [if_pos rfl, if_pos rfl, takePieces]
      by_cases first : value.length = 0
      · rw [if_pos first, if_pos first]
        exact ih keyless true
      · rw [if_neg first, if_neg first]
        rfl
  | element el attr inside rest ihInside =>
    have entered : LocalconfigData.handle ⟨target, value, true, inValue⟩ (.start el attr) =
        .ok ⟨target, value, true, inValue || decide (el = valueTag)⟩ := by
      rw [start_child _ attr keyless.1]
      by_cases isValue : el = valueTag
      · rw [if_pos ⟨rfl, isValue⟩, decide_eq_true isValue, Bool.or_true]
      · rw [if_neg fun both => isValue both.2, decide_eq_false isValue, Bool.or_false]
    rw [Sax.Content.events, Sax.run_cons, entered]
    change Sax.run LocalconfigData.handle _ _ = _
    rw [Sax.run_append, ihInside keyless.2.1, heard]
    cases takePieces value (heard (inValue || decide (el = valueTag)) inside) with
    | error => rfl
    | ok value' =>
      change Sax.run LocalconfigData.handle (if _ then _ else _) (.stop el :: rest.events) = _
      rw [Sax.run_cons, stop_clears]
      exact run_passed rest keyless.2.2

theorem heard_onlyText {content : Sax.Content} (plain : content.OnlyText) :
    heard false content = [] := by
  induction content with
  | nil => rfl
  | text piece rest ih => exact ih plain
  | element => exact plain.elim

theorem handle_key (key : KeyElement) :
    LocalconfigData.handle ⟨target, value, false, false⟩ (.start keyTag key.attr) =
      .ok ⟨target, value, decide (key.Opens target), false⟩ := by
  obtain ⟨first, rest, attrs⟩ := List.exists_cons_of_ne_nil (List.ne_nil_of_mem key.named)
  have opens : key.Opens target ↔ first.2 = target := by
    rw [KeyElement.Opens, attrs]
    exact Option.some_inj
  rw [attrs, start_keyTag]
  by_cases same : target = first.2
  · rw [if_pos same, decide_eq_true (opens.mpr same.symm)]
  · rw [if_neg same, decide_eq_false fun isOpen => same (opens.mp isOpen).symm]

/-- With the flags clear, the value and what is behind it are passed over. -/
theorem run_rest (key : KeyElement) :
    Sax.run LocalconfigData.handle ⟨target, value, false, false⟩
      (.start valueTag key.valueAttr :: (key.value.events ++
        .stop valueTag :: (key.after.events ++ [.stop keyTag]))) =
      .ok ⟨target, value, false, false⟩ := by
  rw [Sax.run_cons]
  change Sax.run LocalconfigData.handle ⟨target, value, false, false⟩ _ = _
  rw [Sax.run_append, run_passed key.value key.keyless.2.1]
  change Sax.run LocalconfigData.handle ⟨target, value, false, false⟩ (.stop valueTag :: _) = _
  rw [Sax.run_cons]
  change Sax.run LocalconfigData.handle ⟨target, value, false, false⟩ _ = _
  rw [Sax.run_append, run_passed key.after key.keyless.2.2]
  rfl

/-- A key that is passed over. -/
theorem run_closed (key : KeyElement) (closed : ¬ key.Opens target) :
    Sax.run LocalconfigData.handle ⟨target, value, false, false⟩ key.events =
      .ok ⟨target, value, false, false⟩ := by
  rw [KeyElement.events, Sax.run_cons, handle_key, decide_eq_false closed]
  change Sax.run LocalconfigData.handle _ _ = _
  rw [Sax.run_append, run_passed key.before key.keyless.1]
  exact run_rest key

/-- A key that is looked into. -/
theorem run_opened (key : KeyElement) (opens : key.Opens target) :
    Sax.run LocalconfigData.handle ⟨target, value, false, false⟩ key.events =
      (takePieces value key.taken).map (⟨target, ·, false, false⟩) := by
  rw [KeyElement.events, Sax.run_cons, handle_key, decide_eq_true opens]
  change Sax.run LocalconfigData.handle _ _ = _
  rw [Sax.run_append, run_heard key.before key.keyless.1, KeyElement.taken]
  by_cases plain : key.before.OnlyText
  · rw [heard_onlyText plain, if_pos plain]
    change Sax.run LocalconfigData.handle (if _ then _ else _) _ = _
    rw [if_pos plain, Sax.run_cons]
    change Sax.run LocalconfigData.handle ⟨target, value, true, true⟩ _ = _
    rw [Sax.run_append, run_heard key.value key.keyless.2.1]
    cases takePieces value (heard true key.value) with
    | error => rfl
    | ok value' =>
      change Sax.run LocalconfigData.handle (if _ then _ else _) (.stop valueTag :: _) = _
      rw [Sax.run_cons, stop_clears]
      change Sax.run LocalconfigData.handle ⟨target, value', false, false⟩ _ = _
      rw [Sax.run_append, run_passed key.after key.keyless.2.2]
      rfl
  · rw [if_neg plain]
    cases takePieces value (heard false key.before) with
    | error => rfl
    | ok value' =>
      -- the end tag of the element before the value has cleared the flags
      change Sax.run LocalconfigData.handle (if _ then _ else _) _ = _
      rw [if_neg plain]
      exact run_rest key

/-- All keys of a configuration. -/
theorem run_keys (keys : List (KeyElement × Sax.Content))
    (keyless : ∀ key ∈ keys, key.2.Without keyTag) :
    Sax.run LocalconfigData.handle ⟨target, value, false, false⟩ (keysEvents keys) =
      (takePieces value (takenOf target keys)).map (⟨target, ·, false, false⟩) := by
  induction keys generalizing value with
  | nil => rfl
  | cons first rest ih =>
    have one : Sax.run LocalconfigData.handle ⟨target, value, false, false⟩ first.1.events =
        (takePieces value (if first.1.Opens target then first.1.taken else [])).map
          (⟨target, ·, false, false⟩) := by
      by_cases opens : first.1.Opens target
      · rw [if_pos opens, run_opened first.1 opens]
      · rw [if_neg opens, run_closed first.1 opens]
        rfl
    rw [keysEvents, List.flatMap_cons, List.append_assoc, Sax.run_append, one, takenOf,
      List.flatMap_cons, takePieces_append]
    cases takePieces value (if first.1.Opens target then first.1.taken else []) with
    | error => rfl
    | ok value' =>
      change Sax.run LocalconfigData.handle ⟨target, value', false, false⟩ _ = _
      rw [Sax.run_append, run_passed first.2 (keyless first List.mem_cons_self)]
      exact ih fun key member => keyless key (List.mem_cons_of_mem _ member)

end Runs

/-! ### The pieces that are taken -/

theorem heard_delivered {content : Sax.Content} (delivered : content.Delivered) (inValue : Bool) :
    ∀ piece ∈ heard inValue content, piece ≠ [] := by
  induction content generalizing inValue with
  | nil => exact fun _ member => absurd member List.not_mem_nil
  | text first rest ih =>
    rw [heard]
    split
    · exact List.forall_mem_cons.mpr ⟨delivered.1, ih delivered.2 inValue⟩
    · exact ih delivered.2 inValue
  | element el attr inside rest ihInside => exact ihInside delivered.1 _

theorem taken_delivered (key : KeyElement) : ∀ piece ∈ key.taken, piece ≠ [] := by
  rw [KeyElement.taken]
  split
  · exact heard_delivered key.delivered.2.1 true
  · exact heard_delivered key.delivered.1 false

theorem takenOf_delivered (target : Bytes) (keys : List (KeyElement × Sax.Content)) :
    ∀ piece ∈ takenOf target keys, piece ≠ [] := by
  intro piece member
  obtain ⟨key, -, within⟩ := List.mem_flatMap.mp member
  split at within
  · exact taken_delivered key.1 piece within
  · exact absurd within List.not_mem_nil

theorem takenOf_eq_nil_iff (target : Bytes) (keys : List (KeyElement × Sax.Content)) :
    takenOf target keys = [] ↔ ∀ key ∈ keys, key.1.Opens target → key.1.taken = [] := by
  rw [takenOf, List.flatMap_eq_nil_iff]
  refine forall₂_congr fun key _ => ?_
  split
  next opens => exact ⟨fun none _ => none, fun none => none opens⟩
  next closed => exact iff_of_true rfl fun opens => absurd opens closed

/-- Pieces that are delivered make no text only if there are none. -/
theorem flatten_eq_nil {pieces : List Bytes} (delivered : ∀ piece ∈ pieces, piece ≠ []) :
    pieces.flatten = [] ↔ pieces = [] := by
  rw [List.flatten_eq_nil_iff]
  constructor
  · intro all
    exact List.eq_nil_iff_forall_not_mem.mpr
      fun piece member => delivered piece member (all piece member)
  · rintro rfl piece member
    exact absurd member List.not_mem_nil

theorem takenOf_append (target : Bytes) (keys more : List (KeyElement × Sax.Content)) :
    takenOf target (keys ++ more) = takenOf target keys ++ takenOf target more :=
  List.flatMap_append

/-- Pieces on both sides of a value do not change its text only if there are none. -/
theorem flatten_amid {front pieces back : List Bytes} (frontDelivered : ∀ piece ∈ front, piece ≠ [])
    (backDelivered : ∀ piece ∈ back, piece ≠ []) :
    (front ++ (pieces ++ back)).flatten = pieces.flatten ↔ front = [] ∧ back = [] := by
  rw [← flatten_eq_nil frontDelivered, ← flatten_eq_nil backDelivered, List.flatten_append,
    List.flatten_append]
  constructor
  · intro same
    have lengths := congrArg List.length same
    rw [List.length_append, List.length_append] at lengths
    exact ⟨List.length_eq_zero_iff.mp (by omega), List.length_eq_zero_iff.mp (by omega)⟩
  · rintro ⟨noFront, noBack⟩
    rw [noFront, noBack, List.nil_append, List.append_nil]

/-- A key that is found, amid the other ones. -/
theorem taken_amid (doc : LocalConfig) {key : KeyElement} (opens : key.Opens key.name)
    (member : key ∈ doc.keys.map Prod.fst) :
    ∃ front back, takenOf key.name doc.keys = front ++ (key.taken ++ back) ∧
      (∀ piece ∈ front, piece ≠ []) ∧ (∀ piece ∈ back, piece ≠ []) ∧
      ((front = [] ∧ back = []) ↔ ∀ other ∈ doc.keys, other.1.name ≠ key.name →
        other.1.Opens key.name → other.1.taken = []) := by
  obtain ⟨pair, among, rfl⟩ := List.mem_map.mp member
  obtain ⟨before, after, split⟩ := List.append_of_mem among
  have distinct := doc.distinct
  rw [split, List.map_append, List.map_cons, List.nodup_middle, List.nodup_cons, List.mem_append,
    not_or] at distinct
  -- the names of the keys on both sides are other ones
  have apart : ∀ other ∈ before ++ after, other.1.name ≠ pair.1.name := by
    intro other within same
    rcases List.mem_append.mp within with left | right
    · exact distinct.1.1 (List.mem_map.mpr ⟨other, left, same⟩)
    · exact distinct.1.2 (List.mem_map.mpr ⟨other, right, same⟩)
  refine ⟨takenOf pair.1.name before, takenOf pair.1.name after, ?_, takenOf_delivered _ _,
    takenOf_delivered _ _, ?_⟩
  · have own : takenOf pair.1.name (pair :: after) = pair.1.taken ++ takenOf pair.1.name after := by
      rw [takenOf, List.flatMap_cons, if_pos opens]
      rfl
    rw [split, takenOf_append, own]
  · rw [← List.append_eq_nil_iff, ← takenOf_append, takenOf_eq_nil_iff]
    constructor
    · intro silent other within other_ne
      rw [split] at within
      rcases List.mem_append.mp within with left | right
      · exact silent other (List.mem_append_left _ left)
      · rcases List.mem_cons.mp right with rfl | later
        · exact absurd rfl other_ne
        · exact silent other (List.mem_append_right _ later)
    · intro silent other within
      have there : other ∈ doc.keys := by
        rw [split]
        rcases List.mem_append.mp within with left | right
        · exact List.mem_append_left _ left
        · exact List.mem_append_right _ (List.mem_cons_of_mem _ right)
      exact silent other there (apart other within)

theorem finds_iff (doc : LocalConfig) (key : KeyElement) (member : key ∈ doc.keys.map Prod.fst) :
    doc.Finds key ↔
      (takenOf key.name doc.keys).length ≤ 1 ∧ (takenOf key.name doc.keys).flatten = key.text := by
  have text : key.text = key.value.pieces.flatten := key.value.flatten_pieces.symm
  by_cases reached : key.Reached
  · obtain ⟨front, back, split, frontDelivered, backDelivered, silent⟩ :=
      taken_amid doc reached.opens member
    have own : key.taken = key.value.pieces := (if_pos reached.plain).trans reached.whole
    have finds : doc.Finds key ↔ key.value.pieces.length ≤ 1 ∧ front = [] ∧ back = [] := by
      rw [silent]
      exact ⟨fun finds => finds.reached reached, fun few => ⟨fun _ => few, absurd reached⟩⟩
    rw [finds, split, own, text, flatten_amid frontDelivered backDelivered]
    refine and_congr_left fun both => ?_
    rw [both.1, both.2, List.nil_append, List.append_nil]
  · have finds : doc.Finds key ↔ key.value.pieces = [] ∧ takenOf key.name doc.keys = [] ∨
        takenOf key.name doc.keys = [key.text] :=
      ⟨fun finds => finds.missed reached,
        fun missed => ⟨fun here => absurd here reached, fun _ => missed⟩⟩
    rw [finds]
    match takenOf key.name doc.keys with
    | [] =>
      have few : ([] : List Bytes).length ≤ 1 := Nat.zero_le 1
      rw [and_iff_left rfl, or_iff_left (List.cons_ne_nil _ _).symm, and_iff_right few,
        List.flatten_nil, eq_comm (a := ([] : Bytes)), text,
        flatten_eq_nil (Sax.Content.pieces_delivered key.delivered.2.1)]
    | [piece] =>
      have few : [piece].length ≤ 1 := le_rfl
      rw [or_iff_right fun both => List.cons_ne_nil _ _ both.2, and_iff_right few,
        List.flatten_singleton, List.singleton_inj]
    | piece :: next :: rest =>
      refine iff_of_false ?_ fun both => absurd both.1 (by simp)
      rintro (⟨-, none⟩ | one)
      · exact List.cons_ne_nil _ _ none
      · exact List.cons_ne_nil _ _ (List.cons.inj one).2

/-- The value of a key is found exactly if it is reached, comes in one piece or none, and nothing is
taken of other keys; or if it is missed, and what is taken in its place is its text. -/
theorem getLocalconfig_iff (expat : Bytes → XmlParse) (xml : Bytes) (doc : LocalConfig)
    (parsed : expat xml = .parsed doc.events) (key : KeyElement)
    (member : key ∈ doc.keys.map Prod.fst) :
    getLocalconfig expat xml key.name = .ok key.text ↔ doc.Finds key := by
  have run : getLocalconfig expat xml key.name = takePieces [] (takenOf key.name doc.keys) := by
    rw [getLocalconfig, parseXmlText, parsed]
    dsimp only
    rw [LocalConfig.events, Sax.run_cons]
    change (Sax.run LocalconfigData.handle ⟨key.name, [], false, false⟩ _).map _ = _
    rw [Sax.run_append, run_passed doc.lead doc.keyless.1]
    change (Sax.run LocalconfigData.handle ⟨key.name, [], false, false⟩ _).map _ = _
    rw [Sax.run_append, run_keys doc.keys doc.keyless.2]
    cases takePieces [] (takenOf key.name doc.keys) <;> rfl
  rw [run, finds_iff doc key member, takePieces_empty _ (takenOf_delivered _ _)]
  by_cases few : (takenOf key.name doc.keys).length ≤ 1
  · rw [if_pos few, Except.ok.injEq, and_iff_right few]
  · rw [if_neg few]
    exact iff_of_false nofun fun both => few both.1

/-- A configuration of one key, as it is written and as it is delivered. -/
def oneKeyText (value : String) : Bytes :=
  ascii "<localconfig>\n<key name=\"zimbra_mysql_password\">\n<value>" ++ ascii value ++
    ascii "</value>\n</key>\n</localconfig>"

def oneKey (value : Sax.Content) (delivered : value.Delivered) (keyless : value.Without keyTag) :
    LocalConfig where
  attr := []
  lead := .text (ascii "\n") .nil
  keys := [(
    { attr := [(ascii "name", ascii "zimbra_mysql_password")]
      name := ascii "zimbra_mysql_password"
      named := List.mem_singleton_self _
      attrDistinct := List.nodup_singleton _
      before := .text (ascii "\n") .nil
      valueAttr := []
      value
      after := .text (ascii "\n") .nil
      delivered := ⟨⟨by decide, trivial⟩, delivered, by decide, trivial⟩
      keyless := ⟨trivial, keyless, trivial⟩
      oneValue := List.not_mem_nil }, .text (ascii "\n") .nil)]
  keyless := ⟨trivial, fun _ member => by cases List.mem_singleton.mp member; trivial⟩
  distinct := List.nodup_singleton _

theorem getLocalconfig_one_piece :
    getLocalconfig (fun _ => .parsed
        (oneKey (.text (ascii "secret") .nil) ⟨by decide, trivial⟩ trivial).events)
      (oneKeyText "secret") (ascii "zimbra_mysql_password") = .ok (ascii "secret") := by
  let doc := oneKey (.text (ascii "secret") .nil) ⟨by decide, trivial⟩ trivial
  refine (getLocalconfig_iff (fun _ => .parsed doc.events) (oneKeyText "secret") doc rfl _
    List.mem_cons_self).mpr ⟨fun _ => ⟨le_rfl, fun _ member other => ?_⟩, fun missed => ?_⟩
  · cases List.mem_singleton.mp member
    exact absurd rfl other
  · exact absurd ⟨rfl, trivial, rfl⟩ missed

/-- A password with an `&`, for which the document has a reference. -/
theorem value_in_pieces : ¬ ∀ (expat : Bytes → XmlParse) (xml : Bytes) (doc : LocalConfig),
    expat xml = .parsed doc.events → ∀ key ∈ doc.keys.map Prod.fst,
      getLocalconfig expat xml key.name = .ok key.text := by
  intro all
  let value : Sax.Content := .text (ascii "a") (.text (ascii "&") (.text (ascii "b") .nil))
  let doc := oneKey value ⟨by decide, by decide, by decide, trivial⟩ trivial
  have found := all (fun _ => .parsed doc.events) (oneKeyText "a&amp;b") doc rfl _
    List.mem_cons_self
  cases found

end Zn
