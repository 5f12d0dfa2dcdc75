import MyStudy.Zn.LocalConfig

/-!
# The text of an element

`zn_xml::_get_element_value` looks for the element at the end of a path of tags. An index counts the
tags of the path that were found, and a flag says that the next text is the one looked for.
-/
namespace Zn

/-! ### The handlers -/

/-- `zn_xml_element`. -/
structure ElementData where
  tagList : List Bytes
  elementValue : Bytes
  tagIndex : Nat
  targetValueFlag : Bool
  deriving DecidableEq, Repr

def getElementStart (data : ElementData) (el : Bytes) : Except XmlFailure ElementData :=
  match data.tagList[data.tagIndex]? with
  | none => .error .outOfRange
  | some tag =>
    let tagIndex := if tag = el then data.tagIndex + 1 else data.tagIndex
    if tagIndex = data.tagList.length then
      .ok { data with targetValueFlag := true, tagIndex := data.tagList.length - 1 }
    else .ok { data with tagIndex }

def getElementValueHandler (data : ElementData) (s : Bytes) : Except XmlFailure ElementData :=
  if data.targetValueFlag then
    if data.elementValue.length = 0 then
      .ok { data with elementValue := data.elementValue ++ s, targetValueFlag := false }
    else .error .assertion
  else .ok data

def getElementEnd (data : ElementData) (el : Bytes) : Except XmlFailure ElementData :=
  if data.tagIndex = 0 then .ok data
  else
    match data.tagList[data.tagIndex - 1]? with
    | none => .error .outOfRange
    | some tag => if tag = el then .ok { data with tagIndex := data.tagIndex - 1 } else .ok data

def ElementData.handle (data : ElementData) : Sax.Event → Except XmlFailure ElementData
  | .start el _ => getElementStart data el
  | .chars piece => getElementValueHandler data piece
  | .stop el => getElementEnd data el

/-- `_get_element_value`. -/
def getElementValue (expat : Bytes → XmlParse) (xml : Bytes) (tagList : List Bytes) :
    Except XmlFailure Bytes :=
  (parseXmlText expat ElementData.handle ⟨tagList, [], 0, false⟩ xml).map ElementData.elementValue

def soapFaultPath : List Bytes := [ascii "soap:Fault", ascii "soap:Reason", ascii "soap:Text"]

def checkSoapError (expat : Bytes → XmlParse) (xml : Bytes) : Except XmlFailure Bytes :=
  getElementValue expat xml soapFaultPath

/-! ### What the path leads to -/

/-- An element, below the elements of these names, is at the end of the path. -/
def OnPath (path above : List Bytes) (el : Bytes) : Prop :=
  path.dropLast.Sublist above ∧ path.getLast? = some el

instance (path above : List Bytes) (el : Bytes) : Decidable (OnPath path above el) :=
  inferInstanceAs (Decidable (_ ∧ _))

/-- The inside of the first element at the end of the path. -/
def firstOnPath (path above : List Bytes) : Sax.Content → Option Sax.Content
  | .nil => none
  | .text _ rest => firstOnPath path above rest
  | .element el _ inside rest =>
    if OnPath path above el then some inside
    else (firstOnPath path (above ++ [el]) inside).or (firstOnPath path above rest)

/-- The text of that element; empty if there is none. -/
def valueOnPath (path : List Bytes) (doc : Sax.Content) : Bytes :=
  ((firstOnPath path [] doc).map Sax.Content.string).getD []

/-- An element at the end of the path, or a piece of text. -/
inductive Mark where
  | complete
  | piece (text : Bytes)
  deriving DecidableEq, Repr

/-- The elements at the end of the path, and the pieces, in the order of the document. -/
def pathMarks (path above : List Bytes) : Sax.Content → List Mark
  | .nil => []
  | .text piece rest => .piece piece :: pathMarks path above rest
  | .element el _ inside rest =>
    (if OnPath path above el then [.complete] else []) ++
      (pathMarks path (above ++ [el]) inside ++ pathMarks path above rest)

/-- Where the text of the first element at the end of the path is what is returned: it is empty, and
there is no text behind the element; or it is one piece, and behind it no other element at the end
of the path is followed by a text. -/
def WholeText (path : List Bytes) (doc : Sax.Content) : Prop :=
  match firstOnPath path [] doc with
  | none => True
  | some inside =>
    (inside.pieces = [] ∧
      ∀ text, ¬ [.complete, .piece text].Sublist (pathMarks path [] doc)) ∨
    (inside.pieces.length = 1 ∧ ∀ text other,
      ¬ [.complete, .piece text, .complete, .piece other].Sublist (pathMarks path [] doc))

/-! ### The index -/

/-- A start tag that completes the path while the index is what it is. -/
def Completes (path : List Bytes) (index : Nat) (el : Bytes) : Prop :=
  path[index]? = some el ∧ index + 1 = path.length

instance (path : List Bytes) (index : Nat) (el : Bytes) : Decidable (Completes path index el) :=
  inferInstanceAs (Decidable (_ ∧ _))

/-- The index after a start tag. It stays at the last tag of the path. -/
def indexIn (path : List Bytes) (index : Nat) (el : Bytes) : Nat :=
  if path[index]? = some el ∧ index + 1 < path.length then index + 1 else index

/-- The index after an end tag. -/
def indexOut (path : List Bytes) (index : Nat) (el : Bytes) : Nat :=
  if 0 < index ∧ path[index - 1]? = some el then index - 1 else index

/-- How many tags of the path, but for the last one, are found among these names, one after the
other. -/
def depth (path above : List Bytes) : Nat := above.foldl (indexIn path) 0

/-- An element that does not lead on along the path has another name than the tag of the path that
was found last above it, so that its end tag is not taken for the one of that tag. -/
def OwnEnd (path above : List Bytes) (el : Bytes) : Prop :=
  indexIn path (depth path above) el = depth path above → 0 < depth path above →
    path[depth path above - 1]? ≠ some el

instance (path above : List Bytes) (el : Bytes) : Decidable (OwnEnd path above el) :=
  inferInstanceAs (Decidable (_ → _))

/-- No end tag is taken for another one. -/
def Unconfused (path above : List Bytes) : Sax.Content → Prop
  | .nil => True
  | .text _ rest => Unconfused path above rest
  | .element el _ inside rest =>
    OwnEnd path above el ∧ Unconfused path (above ++ [el]) inside ∧ Unconfused path above rest

/-- No end tag before the first element at the end of the path is taken for another one. -/
def UnconfusedBefore (path above : List Bytes) : Sax.Content → Prop
  | .nil => True
  | .text _ rest => UnconfusedBefore path above rest
  | .element el _ inside rest =>
    if OnPath path above el then True
    else if firstOnPath path (above ++ [el]) inside = none then
      OwnEnd path above el ∧ Unconfused path (above ++ [el]) inside ∧
        UnconfusedBefore path above rest
    else UnconfusedBefore path (above ++ [el]) inside

/-- When the text of the first element at the end of the path is returned, as far as end tags are
not confused: there is no such element, or it is found and whole. -/
def Readable (path : List Bytes) (doc : Sax.Content) : Prop :=
  firstOnPath path [] doc = none ∨ UnconfusedBefore path [] doc ∧ WholeText path doc

theorem unconfusedBefore_of_unconfused {path above : List Bytes} {content : Sax.Content}
    (unconfused : Unconfused path above content) : UnconfusedBefore path above content := by
  induction content generalizing above with
  | nil => trivial
  | text piece rest ih => exact ih unconfused
  | element el attr inside rest ihInside ihRest =>
    obtain ⟨own, within, behind⟩ := unconfused
    rw [UnconfusedBefore]
    split
    · trivial
    · split
      · exact ⟨own, within, ihRest behind⟩
      · exact ihInside within

/-! ### The run over the marks -/

/-- The tags that complete the path by the index, and the pieces between them. -/
def marks (path : List Bytes) (index : Nat) : List Sax.Event → List Mark
  | [] => []
  | .start el _ :: events =>
    if Completes path index el then .complete :: marks path index events
    else marks path (indexIn path index el) events
  | .chars piece :: events => .piece piece :: marks path index events
  | .stop el :: events => marks path (indexOut path index el) events

/-- The value and the flag, from mark to mark. -/
def markStep (value : Bytes) (flag : Bool) : Mark → Except XmlFailure (Bytes × Bool)
  | .complete => .ok (value, true)
  | .piece text =>
    if flag then if value.length = 0 then .ok (value ++ text, false) else .error .assertion
    else .ok (value, false)

def runMarks : Bytes → Bool → List Mark → Except XmlFailure Bytes
  | value, _, [] => .ok value
  | value, flag, mark :: rest =>
    (markStep value flag mark).bind fun next => runMarks next.1 next.2 rest

theorem start_complete {path : List Bytes} {index : Nat} {el : Bytes} (value : Bytes)
    (flag : Bool) (attr : List Sax.Attr) (complete : Completes path index el) :
    ElementData.handle ⟨path, value, index, flag⟩ (.start el attr) =
      .ok ⟨path, value, index, true⟩ := by
  obtain ⟨here, last⟩ := complete
  change getElementStart ⟨path, value, index, flag⟩ el = _
  simp only [getElementStart, here, if_true, last]
  rw [show path.length - 1 = index by omega]

theorem start_other {path : List Bytes} {index : Nat} {el : Bytes} (value : Bytes) (flag : Bool)
    (attr : List Sax.Attr) (inside : index < path.length) (other : ¬ Completes path index el) :
    ElementData.handle ⟨path, value, index, flag⟩ (.start el attr) =
      .ok ⟨path, value, indexIn path index el, flag⟩ := by
  change getElementStart ⟨path, value, index, flag⟩ el = _
  have here := List.getElem?_eq_getElem inside
  simp only [getElementStart, here]
  by_cases same : path[index] = el
  · have more : index + 1 ≠ path.length := fun last => other ⟨by rw [here, same], last⟩
    rw [if_pos same, if_neg more, indexIn, if_pos ⟨by rw [here, same], by omega⟩]
  · rw [if_neg same, if_neg inside.ne, indexIn,
      if_neg fun both => same (Option.some.inj (here.symm.trans both.1))]

theorem stop_any {path : List Bytes} {index : Nat} (el value : Bytes) (flag : Bool)
    (inside : index < path.length) :
    ElementData.handle ⟨path, value, index, flag⟩ (.stop el) =
      .ok ⟨path, value, indexOut path index el, flag⟩ := by
  change getElementEnd ⟨path, value, index, flag⟩ el = _
  rw [getElementEnd, indexOut]
  by_cases first : index = 0
  · rw [if_pos first, if_neg fun both => both.1.ne' first]
  · have here := List.getElem?_eq_getElem (show index - 1 < path.length by omega)
    rw [if_neg first]
    dsimp only
    rw [here]
    by_cases same : path[index - 1] = el
    · rw [if_pos ⟨Nat.pos_of_ne_zero first, by rw [same]⟩]
      exact if_pos same
    · rw [if_neg fun both => same (Option.some.inj both.2)]
      exact if_neg same

theorem indexIn_lt {path : List Bytes} {index : Nat} (el : Bytes) (inside : index < path.length) :
    indexIn path index el < path.length := by
  rw [indexIn]
  split
  next more => exact more.2
  next => exact inside

theorem indexOut_lt {path : List Bytes} {index : Nat} (el : Bytes) (inside : index < path.length) :
    indexOut path index el < path.length := by
  rw [indexOut]
  split
  · omega
  · exact inside

/-- The handlers only see the marks. -/
theorem run_eq_runMarks (path : List Bytes) (events : List Sax.Event) (index : Nat)
    (value : Bytes) (flag : Bool) (inside : index < path.length) :
    (Sax.run ElementData.handle ⟨path, value, index, flag⟩ events).map ElementData.elementValue =
      runMarks value flag (marks path index events) := by
  induction events generalizing index value flag with
  | nil => rfl
  | cons event events ih =>
    rw [Sax.run_cons]
    cases event with
    | start el attr =>
      rw [marks]
      by_cases complete : Completes path index el
      · rw [if_pos complete, start_complete value flag attr complete]
        exact ih index value true inside
      · rw [if_neg complete, start_other value flag attr inside complete]
        exact ih _ value flag (indexIn_lt el inside)
    | stop el =>
      rw [stop_any el value flag inside]
      exact ih _ value flag (indexOut_lt el inside)
    | chars piece =>
      rw [marks, runMarks, markStep]
      change (Except.bind (getElementValueHandler ⟨path, value, index, flag⟩ piece) _).map _ = _
      rw [getElementValueHandler]
      cases flag with
      | false => exact ih index value false inside
      | true =>
        -- the first piece is the value, and a second one fails the assertion
        by_cases first : value.length = 0
        · simp only [if_true, first]
          exact ih index (value ++ piece) false inside
        · simp only [if_true, first, if_false]
          rfl

/-! ### The index and the path -/

theorem depth_append (path above : List Bytes) (el : Bytes) :
    depth path (above ++ [el]) = indexIn path (depth path above) el := by
  rw [depth, List.foldl_append]
  rfl

theorem depth_lt {path : List Bytes} (some_ : path ≠ []) (above : List Bytes) :
    depth path above < path.length := by
  induction above using List.reverseRecOn with
  | nil => exact List.length_pos_iff.mpr some_
  | append_singleton above el ih =>
    rw [depth_append]
    exact indexIn_lt el ih

theorem sublist_append_singleton (tags above : List Bytes) (el : Bytes) :
    tags.Sublist (above ++ [el]) ↔ tags.Sublist above ∨ ∃ front, tags = front ++ [el] ∧
      front.Sublist above := by
  rw [List.sublist_append_iff]
  constructor
  · rintro ⟨front, back, rfl, inAbove, last⟩
    rcases List.sublist_singleton.mp last with rfl | rfl
    · exact .inl (by rwa [List.append_nil])
    · exact .inr ⟨front, rfl, inAbove⟩
  · rintro (inAbove | ⟨front, rfl, inAbove⟩)
    · exact ⟨tags, [], (List.append_nil tags).symm, inAbove, List.nil_sublist _⟩
    · exact ⟨front, [el], rfl, inAbove, List.Sublist.refl _⟩

/-- Taking each tag of the path as soon as it comes finds as many of them as there are. -/
theorem take_sublist_iff {path : List Bytes} (above : List Bytes) (k : Nat)
    (inside : k < path.length) :
    (path.take k).Sublist above ↔ k ≤ depth path above := by
  induction above using List.reverseRecOn generalizing k with
  | nil =>
    rw [List.sublist_nil, List.take_eq_nil_iff, depth, List.foldl_nil, Nat.le_zero]
    exact or_iff_left (List.ne_nil_of_length_pos (by omega))
  | append_singleton above el ih =>
    rw [sublist_append_singleton, ih k inside, depth_append, indexIn]
    cases k with
    | zero => exact iff_of_true (.inl (Nat.zero_le _)) (Nat.zero_le _)
    | succ j =>
      have within : j < path.length := by omega
      have last : path[j]? = some path[j] := List.getElem?_eq_getElem within
      -- the tag is the next of the path, and those before it are found above
      have ends : (∃ front, path.take (j + 1) = front ++ [el] ∧ front.Sublist above) ↔
          path[j]? = some el ∧ j ≤ depth path above := by
        rw [List.take_succ_eq_append_getElem within, ← ih j within, last, Option.some_inj]
        constructor
        · rintro ⟨front, same, inAbove⟩
          obtain ⟨rfl, one⟩ := List.append_inj' same rfl
          exact ⟨(List.cons.inj one).1, inAbove⟩
        · rintro ⟨rfl, inAbove⟩
          exact ⟨_, rfl, inAbove⟩
      rw [ends]
      by_cases here : path[depth path above]? = some el ∧ depth path above + 1 < path.length
      · rw [if_pos here]
        constructor
        · rintro (less | ⟨-, less⟩) <;> omega
        · intro less
          rcases Nat.lt_or_ge j (depth path above) with below | equal
          · exact .inl below
          · obtain rfl : j = depth path above := by omega
            exact .inr ⟨here.1, le_rfl⟩
      · rw [if_neg here]
        refine or_iff_left_of_imp fun both => ?_
        -- behind the last tag there is none to be found
        by_contra notBelow
        obtain rfl : j = depth path above := by omega
        exact here ⟨both.1, inside⟩

/-- The index completes the path at the elements at its end. -/
theorem completes_iff {path : List Bytes} (some_ : path ≠ []) (above : List Bytes) (el : Bytes) :
    Completes path (depth path above) el ↔ OnPath path above el := by
  have pos := List.length_pos_iff.mpr some_
  have below := depth_lt some_ above
  rw [Completes, OnPath, List.dropLast_eq_take, take_sublist_iff above _ (by omega),
    List.getLast?_eq_getElem?]
  constructor
  · rintro ⟨here, last⟩
    exact ⟨by omega, by rwa [show path.length - 1 = depth path above by omega]⟩
  · rintro ⟨all, here⟩
    have same : depth path above = path.length - 1 := by omega
    exact ⟨by rwa [same], by omega⟩

theorem indexOut_indexIn {path : List Bytes} {index : Nat} {el : Bytes}
    (apart : indexIn path index el = index → 0 < index → path[index - 1]? ≠ some el) :
    indexOut path (indexIn path index el) el = index := by
  by_cases leads : path[index]? = some el ∧ index + 1 < path.length
  · rw [indexIn, if_pos leads, indexOut, if_pos ⟨index.succ_pos, leads.1⟩, Nat.add_sub_cancel]
  · have stays : indexIn path index el = index := if_neg leads
    rw [stays, indexOut, if_neg fun both => apart stays both.1 both.2]

theorem indexIn_of_completes {path : List Bytes} {index : Nat} {el : Bytes}
    (complete : Completes path index el) :
    indexIn path index el = index := if_neg fun both => by have := complete.2; omega

/-- Where no end tag is taken for another one, the path is complete by the index exactly at the
elements at its end. -/
theorem marks_eq {path : List Bytes} (some_ : path ≠ []) (content : Sax.Content)
    (above : List Bytes) (unconfused : Unconfused path above content) (events : List Sax.Event) :
    marks path (depth path above) (content.events ++ events) =
      pathMarks path above content ++ marks path (depth path above) events := by
  induction content generalizing above events with
  | nil => rfl
  | text piece rest ih => exact congrArg (Mark.piece piece :: ·) (ih above unconfused events)
  | element el attr inside rest ihInside ihRest =>
    obtain ⟨apart, within, behind⟩ := unconfused
    -- inside the element the path is one tag further, and behind it as far as before
    have goesOn : marks path (indexIn path (depth path above) el)
        (inside.events ++ .stop el :: (rest.events ++ events)) =
        pathMarks path (above ++ [el]) inside ++ (pathMarks path above rest ++
          marks path (depth path above) events) := by
      rw [← depth_append, ihInside (above ++ [el]) within, marks, depth_append,
        indexOut_indexIn apart, ihRest above behind]
    rw [Sax.Content.events, List.cons_append, List.append_assoc, List.cons_append, marks, pathMarks]
    by_cases complete : Completes path (depth path above) el
    · rw [indexIn_of_completes complete] at goesOn
      rw [if_pos complete, if_pos ((completes_iff some_ above el).mp complete), goesOn,
        List.append_assoc, List.append_assoc]
      rfl
    · rw [if_neg complete, if_neg (mt (completes_iff some_ above el).mpr complete), goesOn,
        List.append_assoc, List.append_assoc]
      rfl

/-- In a document without confused tags the handlers go by the elements at the end of the path. -/
theorem marks_document {path : List Bytes} (some_ : path ≠ []) (doc : Sax.Content)
    (unconfused : Unconfused path [] doc) : marks path 0 doc.events = pathMarks path [] doc := by
  have whole := marks_eq some_ doc [] unconfused []
  rwa [List.append_nil, marks, List.append_nil] at whole

/-! ### Confused or not -/

theorem indexIn_mono {path : List Bytes} {low high : Nat} (el : Bytes) (le : low ≤ high) :
    indexIn path low el ≤ indexIn path high el := by
  rcases Nat.lt_or_eq_of_le le with less | rfl
  · have step : indexIn path low el ≤ low + 1 := by
      rw [indexIn]
      split <;> omega
    have stays : high ≤ indexIn path high el := by
      rw [indexIn]
      split <;> omega
    omega
  · exact le_rfl

/-- An end tag takes back what its start tag has added. -/
theorem indexOut_le {path : List Bytes} {index base : Nat} {el : Bytes}
    (le : index ≤ indexIn path base el) :
    indexOut path index el ≤ base := by
  have least : indexOut path index el ≤ index := by
    rw [indexOut]
    split <;> omega
  rw [indexIn] at le
  split at le
  next leads =>
    rcases Nat.lt_or_eq_of_le le with less | rfl
    · omega
    · rw [indexOut, if_pos ⟨base.succ_pos, leads.1⟩]
      exact le_rfl
  next => exact least.trans le

/-- The pieces among the marks. -/
def textsOf (ms : List Mark) : List Bytes :=
  ms.filterMap fun mark => match mark with
    | .complete => none
    | .piece text => some text

theorem textsOf_append (ms more : List Mark) : textsOf (ms ++ more) = textsOf ms ++ textsOf more :=
  List.filterMap_append

theorem textsOf_pathMarks (path above : List Bytes) (content : Sax.Content) :
    textsOf (pathMarks path above content) = content.pieces := by
  induction content generalizing above with
  | nil => rfl
  | text piece rest ih => exact congrArg (piece :: ·) (ih above)
  | element el attr inside rest ihInside ihRest =>
    have tag : textsOf (if OnPath path above el then [.complete] else []) = [] := by
      split <;> rfl
    rw [pathMarks, textsOf_append, tag, List.nil_append, textsOf_append, ihInside, ihRest]
    rfl

/-- In any document the index is never ahead of the path, so that it completes the path only at
elements at its end. -/
theorem marks_sublist {path : List Bytes} (some_ : path ≠ []) (content : Sax.Content)
    (above : List Bytes) (index : Nat) (notAhead : index ≤ depth path above)
    (events : List Sax.Event) :
    ∃ found index', found.Sublist (pathMarks path above content) ∧
      textsOf found = content.pieces ∧ index' ≤ depth path above ∧
      marks path index (content.events ++ events) = found ++ marks path index' events := by
  induction content generalizing above index events with
  | nil => exact ⟨[], index, List.Sublist.refl _, rfl, notAhead, rfl⟩
  | text piece rest ih =>
    obtain ⟨found, index', sub, texts, notAhead', run⟩ := ih above index notAhead events
    exact ⟨.piece piece :: found, index', sub.cons_cons _, congrArg (piece :: ·) texts, notAhead',
      congrArg (Mark.piece piece :: ·) run⟩
  | element el attr inside rest ihInside ihRest =>
    -- an index that has fallen behind stays behind
    have entered : indexIn path index el ≤ depth path (above ++ [el]) := by
      rw [depth_append]
      exact indexIn_mono el notAhead
    obtain ⟨found, index', sub, texts, notAhead', run⟩ := ihInside (above ++ [el]) _ entered
      (.stop el :: (rest.events ++ events))
    rw [depth_append] at notAhead'
    obtain ⟨found', index'', sub', texts', notAhead'', run'⟩ :=
      ihRest above _ (indexOut_le notAhead') events
    rw [marks, run'] at run
    have tag : textsOf (if Completes path index el then [.complete] else []) = [] := by
      split <;> rfl
    refine ⟨(if Completes path index el then [.complete] else []) ++ (found ++ found'), index'',
      List.Sublist.append ?_ (sub.append sub'), ?_, notAhead'', ?_⟩
    · by_cases complete : Completes path index el
      · -- only an index that has not fallen behind can complete the path
        have last := complete.2
        have same : depth path above = index := by
          have := depth_lt some_ above
          omega
        rw [if_pos complete, if_pos ((completes_iff some_ above el).mp (same ▸ complete))]
      · rw [if_neg complete]
        exact List.nil_sublist _
    · rw [textsOf_append, tag, List.nil_append, textsOf_append, texts, texts']
      rfl
    · rw [Sax.Content.events, List.cons_append, List.append_assoc, List.cons_append, marks]
      by_cases complete : Completes path index el
      · rw [indexIn_of_completes complete] at run
        rw [if_pos complete, if_pos complete, run, List.append_assoc, List.append_assoc]
        rfl
      · rw [if_neg complete, if_neg complete, run, List.append_assoc, List.append_assoc]
        rfl

/-- Marks in which the first element at the end of the path is found, with the texts inside it. -/
def Found (inside : Sax.Content) (ms : List Mark) : Prop :=
  ∃ front within back, .complete ∉ front ∧ textsOf within = inside.pieces ∧
    ms = front ++ .complete :: (within ++ back)

theorem Found.prepend {inside : Sax.Content} {ms : List Mark} (found : Found inside ms)
    {front : List Mark} (absent : .complete ∉ front) : Found inside (front ++ ms) := by
  obtain ⟨front', within, back, absent', texts, rfl⟩ := found
  refine ⟨front ++ front', within, back, ?_, texts, (List.append_assoc _ _ _).symm⟩
  rw [List.mem_append, not_or]
  exact ⟨absent, absent'⟩

theorem Found.append {inside : Sax.Content} {ms : List Mark} (found : Found inside ms)
    (more : List Mark) : Found inside (ms ++ more) := by
  obtain ⟨front, within, back, absent, texts, rfl⟩ := found
  refine ⟨front, within, back ++ more, absent, texts, ?_⟩
  rw [List.append_assoc, List.cons_append, List.append_assoc]

theorem complete_notMem_pathMarks {path : List Bytes} (content : Sax.Content) (above : List Bytes)
    (absent : firstOnPath path above content = none) :
    .complete ∉ pathMarks path above content := by
  induction content generalizing above with
  | nil => nofun
  | text piece rest ih =>
    intro member
    rcases List.mem_cons.mp member with here | later
    · cases here
    · exact ih above absent later
  | element el attr inside rest ihInside ihRest =>
    rw [firstOnPath] at absent
    split at absent
    · cases absent
    next other =>
      rw [Option.or_eq_none_iff] at absent
      rw [pathMarks, if_neg other, List.nil_append, List.mem_append, not_or]
      exact ⟨ihInside _ absent.1, ihRest above absent.2⟩

/-- The first element at the end of the path is among the elements at its end. -/
theorem found_pathMarks {path : List Bytes} {content inside : Sax.Content} (above : List Bytes)
    (first : firstOnPath path above content = some inside) :
    Found inside (pathMarks path above content) := by
  induction content generalizing above with
  | nil => cases first
  | text piece rest ih =>
    have absent : Mark.complete ∉ [Mark.piece piece] := by simp
    exact (ih above first).prepend absent
  | element el attr within rest ihInside ihRest =>
    rw [firstOnPath] at first
    by_cases onPath : OnPath path above el
    · rw [if_pos onPath] at first
      cases first
      refine ⟨[], pathMarks path (above ++ [el]) inside, pathMarks path above rest,
        List.not_mem_nil, textsOf_pathMarks _ _ _, ?_⟩
      rw [pathMarks, if_pos onPath]
      rfl
    · rw [if_neg onPath] at first
      rw [pathMarks, if_neg onPath, List.nil_append]
      rcases Option.or_eq_some_iff.mp first with deeper | ⟨none_, later⟩
      · exact (ihInside _ deeper).append _
      · exact (ihRest above later).prepend (complete_notMem_pathMarks within _ none_)

/-- Where no end tag before it is confused, the handlers find that element, too. Behind its start
tag they may miss some of the others. -/
theorem found_marks {path : List Bytes} (some_ : path ≠ []) {content inside : Sax.Content}
    (above : List Bytes) (first : firstOnPath path above content = some inside)
    (unconfused : UnconfusedBefore path above content) (events : List Sax.Event) :
    ∃ ms index', Found inside ms ∧ ms.Sublist (pathMarks path above content) ∧
      index' ≤ depth path above ∧
      marks path (depth path above) (content.events ++ events) =
      ms ++ marks path index' events := by
  induction content generalizing above events with
  | nil => cases first
  | text piece rest ih =>
    obtain ⟨ms, index', found, sub, notAhead, run⟩ := ih above first unconfused events
    have absent : Mark.complete ∉ [Mark.piece piece] := by simp
    exact ⟨.piece piece :: ms, index', found.prepend absent, sub.cons_cons _, notAhead,
      congrArg (Mark.piece piece :: ·) run⟩
  | element el attr within rest ihInside ihRest =>
    rw [firstOnPath] at first
    rw [UnconfusedBefore] at unconfused
    rw [pathMarks]
    by_cases onPath : OnPath path above el
    · -- the element itself
      rw [if_pos onPath] at first ⊢
      cases first
      have complete := (completes_iff some_ above el).mpr onPath
      have deeper : depth path above ≤ depth path (above ++ [el]) := by
        rw [depth_append, indexIn_of_completes complete]
      obtain ⟨found, index', sub, texts, notAhead, run⟩ :=
        marks_sublist some_ inside (above ++ [el]) _ deeper (.stop el :: (rest.events ++ events))
      rw [depth_append] at notAhead
      obtain ⟨found', index'', sub', -, notAhead', run'⟩ :=
        marks_sublist some_ rest above _ (indexOut_le notAhead) events
      refine ⟨.complete :: (found ++ found'), index'',
        ⟨[], found, found', List.not_mem_nil, texts, rfl⟩, (sub.append sub').cons_cons _, notAhead',
        ?_⟩
      rw [Sax.Content.events, List.cons_append, List.append_assoc, List.cons_append, marks,
        if_pos complete, run, marks, run', List.cons_append, List.append_assoc]
    · rw [if_neg onPath] at first unconfused ⊢
      rw [List.nil_append]
      have incomplete := mt (completes_iff some_ above el).mp onPath
      rw [Sax.Content.events, List.cons_append, List.append_assoc, List.cons_append, marks,
        if_neg incomplete, ← depth_append]
      cases deeper : firstOnPath path (above ++ [el]) within with
      | some deep =>
        -- inside this one
        rw [deeper, Option.some_or, Option.some_inj] at first
        rw [deeper, if_neg (Option.some_ne_none deep)] at unconfused
        obtain ⟨ms, index', found, sub, notAhead, run⟩ :=
          ihInside (above ++ [el]) (first ▸ deeper) unconfused (.stop el :: (rest.events ++ events))
        rw [depth_append] at notAhead
        obtain ⟨found', index'', sub', -, notAhead', run'⟩ :=
          marks_sublist some_ rest above _ (indexOut_le notAhead) events
        refine ⟨ms ++ found', index'', found.append found', sub.append sub', notAhead', ?_⟩
        rw [run, marks, run', List.append_assoc]
      | none =>
        -- behind this one, which takes the index back to where it was
        rw [deeper, Option.none_or] at first
        rw [deeper, if_pos rfl] at unconfused
        obtain ⟨own, inner, behind⟩ := unconfused
        obtain ⟨ms, index', found, sub, notAhead, run⟩ := ihRest above first behind events
        refine ⟨pathMarks path (above ++ [el]) within ++ ms, index',
          found.prepend (complete_notMem_pathMarks within _ deeper),
          (List.Sublist.refl _).append sub, notAhead, ?_⟩
        rw [marks_eq some_ within (above ++ [el]) inner, marks, depth_append,
          indexOut_indexIn own, run, List.append_assoc]

/-! ### Runs over marks -/

/-- The first piece, and what is behind it. -/
def nextPiece : List Mark → Option (Bytes × List Mark)
  | [] => none
  | .piece text :: rest => some (text, rest)
  | .complete :: rest => nextPiece rest

/-- The first piece behind a tag that completes the path, and what is behind the piece. -/
def pieceOfPath : List Mark → Option (Bytes × List Mark)
  | [] => none
  | .piece _ :: rest => pieceOfPath rest
  | .complete :: rest => nextPiece rest

/-- With a value and the flag, the next piece fails. -/
theorem runMarks_full {value : Bytes} (some_ : value ≠ []) (ms : List Mark) :
    runMarks value true ms = if nextPiece ms = none then .ok value else .error .assertion := by
  induction ms with
  | nil => rfl
  | cons mark rest ih =>
    cases mark with
    | complete => exact ih
    | piece text =>
      rw [runMarks, markStep, if_pos rfl, if_neg (by simpa using some_)]
      rfl

/-- With a value, the next piece behind a tag that completes the path fails. -/
theorem runMarks_kept {value : Bytes} (some_ : value ≠ []) (ms : List Mark) :
    runMarks value false ms = if pieceOfPath ms = none then .ok value else .error .assertion := by
  induction ms with
  | nil => rfl
  | cons mark rest ih =>
    cases mark with
    | complete => exact runMarks_full some_ rest
    | piece text => exact ih

theorem runMarks_waiting (ms : List Mark) : runMarks [] true ms =
    match nextPiece ms with
    | none => .ok []
    | some (text, rest) => runMarks text false rest := by
  induction ms with
  | nil => rfl
  | cons mark rest ih =>
    cases mark with
    | complete => exact ih
    | piece text => rfl

theorem runMarks_start (ms : List Mark) : runMarks [] false ms =
    match pieceOfPath ms with
    | none => .ok []
    | some (text, rest) => runMarks text false rest := by
  induction ms with
  | nil => rfl
  | cons mark rest ih =>
    cases mark with
    | complete => exact runMarks_waiting rest
    | piece text => exact ih

theorem pieceOfPath_eq_none {ms : List Mark} (absent : .complete ∉ ms) : pieceOfPath ms = none := by
  induction ms with
  | nil => rfl
  | cons mark rest ih =>
    cases mark with
    | complete => exact absurd List.mem_cons_self absent
    | piece text => exact ih fun member => absent (List.mem_cons_of_mem _ member)

/-! ### The marks of a document -/

theorem nextPiece_head (ms : List Mark) : (nextPiece ms).map Prod.fst = (textsOf ms).head? := by
  induction ms with
  | nil => rfl
  | cons mark rest ih =>
    cases mark with
    | complete => exact ih
    | piece text => rfl

theorem pieceOfPath_mem {ms rest : List Mark} {text : Bytes}
    (found : pieceOfPath ms = some (text, rest)) :
    text ∈ textsOf ms := by
  induction ms with
  | nil => cases found
  | cons mark others ih =>
    cases mark with
    | complete =>
      refine List.mem_of_mem_head? (?_ : text ∈ (textsOf others).head?)
      rw [← nextPiece_head, show nextPiece others = some (text, rest) from found]
      rfl
    | piece other => exact List.mem_cons_of_mem _ (ih found)

theorem pieceOfPath_front {front : List Mark} (absent : .complete ∉ front) (ms : List Mark) :
    pieceOfPath (front ++ .complete :: ms) = nextPiece ms := by
  induction front with
  | nil => rfl
  | cons mark rest ih =>
    cases mark with
    | complete => exact absurd List.mem_cons_self absent
    | piece text => exact ih fun member => absent (List.mem_cons_of_mem _ member)

/-! ### Texts behind elements -/

theorem piece_sublist_complete (text : Bytes) (some_ ms : List Mark) :
    (.piece text :: some_).Sublist (.complete :: ms) ↔ (.piece text :: some_).Sublist ms := by
  refine ⟨fun sub => ?_, (·.cons _)⟩
  cases sub with
  | cons _ sub => exact sub

theorem complete_sublist_piece (text : Bytes) (some_ ms : List Mark) :
    (.complete :: some_).Sublist (.piece text :: ms) ↔ (.complete :: some_).Sublist ms := by
  refine ⟨fun sub => ?_, (·.cons _)⟩
  cases sub with
  | cons _ sub => exact sub

theorem nextPiece_eq_none_iff (ms : List Mark) :
    nextPiece ms = none ↔ ∀ text, ¬ [.piece text].Sublist ms := by
  induction ms with
  | nil => exact iff_of_true rfl fun text sub => List.cons_ne_nil _ _ (List.sublist_nil.mp sub)
  | cons mark rest ih =>
    cases mark with
    | complete =>
      exact ih.trans (forall_congr' fun _ => not_congr (piece_sublist_complete _ _ _).symm)
    | piece text => exact iff_of_false nofun fun all => all text ((List.nil_sublist _).cons_cons _)

theorem pieceOfPath_eq_none_iff (ms : List Mark) :
    pieceOfPath ms = none ↔ ∀ text, ¬ [.complete, .piece text].Sublist ms := by
  induction ms with
  | nil => exact iff_of_true rfl fun text sub => List.cons_ne_nil _ _ (List.sublist_nil.mp sub)
  | cons mark rest ih =>
    cases mark with
    | complete =>
      rw [pieceOfPath, nextPiece_eq_none_iff]
      exact forall_congr' fun text => not_congr List.cons_sublist_cons.symm
    | piece text =>
      exact ih.trans (forall_congr' fun _ => not_congr (complete_sublist_piece _ _ _).symm)

theorem behind_nextPiece {ms rest : List Mark} {text : Bytes}
    (next : nextPiece ms = some (text, rest)) :
    pieceOfPath rest = none ↔
      ∀ text other, ¬ [.piece text, .complete, .piece other].Sublist ms := by
  induction ms with
  | nil => cases next
  | cons mark others ih =>
    cases mark with
    | complete =>
      exact (ih next).trans (forall₂_congr fun _ _ => not_congr (piece_sublist_complete _ _ _).symm)
    | piece first =>
      cases next
      rw [pieceOfPath_eq_none_iff]
      constructor
      · exact fun quiet _ other sub => quiet other sub.tail
      · exact fun quiet other sub => quiet text other (sub.cons_cons _)

/-- Behind the piece that is found, none follows another element at the end of the path. -/
theorem behind_pieceOfPath {ms rest : List Mark} {text : Bytes}
    (found : pieceOfPath ms = some (text, rest)) :
    pieceOfPath rest = none ↔
      ∀ text other, ¬ [.complete, .piece text, .complete, .piece other].Sublist ms := by
  induction ms with
  | nil => cases found
  | cons mark others ih =>
    cases mark with
    | complete =>
      refine Iff.trans (behind_nextPiece (show nextPiece others = some (text, rest) from found)) ?_
      exact forall₂_congr fun text other => not_congr List.cons_sublist_cons.symm
    | piece first =>
      exact (ih found).trans
        (forall₂_congr fun _ _ => not_congr (complete_sublist_piece _ _ _).symm)

/-! ### The value -/

/-- The text of the first element at the end of the path is taken from marks in which it is
found. -/
theorem runMarks_found {inside : Sax.Content} {ms : List Mark} (finds : Found inside ms)
    (some_ : ∀ piece ∈ textsOf ms, piece ≠ []) :
    runMarks [] false ms = .ok inside.string ↔
      (inside.pieces = [] ∧ ∀ text, ¬ [.complete, .piece text].Sublist ms) ∨
      (inside.pieces.length = 1 ∧
        ∀ text other, ¬ [.complete, .piece text, .complete, .piece other].Sublist ms) := by
  obtain ⟨front, within, back, absent, texts, split⟩ := finds
  -- the piece that is found is the first one from the start tag on
  have found : pieceOfPath ms = nextPiece (within ++ back) := by
    rw [split, pieceOfPath_front absent]
  have head : (nextPiece (within ++ back)).map Prod.fst =
      (inside.pieces ++ textsOf back).head? := by
    rw [nextPiece_head, textsOf_append, texts]
  have among : ∀ piece ∈ inside.pieces, piece ∈ textsOf ms := by
    intro piece member
    rw [split, textsOf_append, List.mem_append]
    refine .inr (?_ : piece ∈ textsOf (within ++ back))
    rw [textsOf_append, texts]
    exact List.mem_append_left _ member
  rw [runMarks_start, ← Sax.Content.flatten_pieces]
  cases pieces : inside.pieces with
  | nil =>
    rw [or_iff_left fun both => Nat.zero_ne_one both.1, and_iff_right rfl,
      ← pieceOfPath_eq_none_iff]
    cases next : pieceOfPath ms with
    | none => exact iff_of_true rfl rfl
    | some pair =>
      -- a text behind the element is returned in its place
      obtain ⟨text, rest⟩ := pair
      have nonempty := some_ text (pieceOfPath_mem next)
      refine iff_of_false ?_ nofun
      dsimp only
      rw [runMarks_kept nonempty]
      split
      · exact fun same => nonempty (Except.ok.inj same)
      · nofun
  | cons piece others =>
    have nonempty := some_ piece (among piece (pieces ▸ List.mem_cons_self))
    rw [pieces] at head
    obtain ⟨pair, next, rfl⟩ := Option.map_eq_some_iff.mp head
    obtain ⟨piece, rest⟩ := pair
    rw [next] at found
    have rest_some : ∀ other ∈ others, other ≠ [] := fun other member =>
      some_ other (among other (pieces ▸ List.mem_cons_of_mem _ member))
    rw [found, or_iff_right fun both => List.cons_ne_nil _ _ both.1, ← behind_pieceOfPath found]
    dsimp only
    rw [runMarks_kept nonempty, List.flatten_cons, List.length_cons, Nat.add_eq_right,
      List.length_eq_zero_iff, ← flatten_eq_nil rest_some]
    by_cases quiet : pieceOfPath rest = none
    · rw [if_pos quiet, and_iff_left quiet, Except.ok.injEq, List.self_eq_append_right]
    · rw [if_neg quiet]
      exact iff_of_false nofun fun both => quiet both.2

/-- A text that is whole is so in fewer marks, too. -/
theorem WholeText.sublist {path : List Bytes} {doc inside : Sax.Content} {ms : List Mark}
    (whole : WholeText path doc) (first : firstOnPath path [] doc = some inside)
    (sub : ms.Sublist (pathMarks path [] doc)) :
    (inside.pieces = [] ∧ ∀ text, ¬ [.complete, .piece text].Sublist ms) ∨
      (inside.pieces.length = 1 ∧
        ∀ text other, ¬ [.complete, .piece text, .complete, .piece other].Sublist ms) := by
  rw [WholeText, first] at whole
  exact whole.imp (And.imp_right fun quiet text here => quiet text (here.trans sub))
    (And.imp_right fun quiet text other here => quiet text other (here.trans sub))

/-- A document, as it is delivered. -/
structure Document where
  el : Bytes
  attr : List Sax.Attr
  inside : Sax.Content
  delivered : inside.Delivered

def Document.content (doc : Document) : Sax.Content := .element doc.el doc.attr doc.inside .nil

theorem getElementValue_eq (expat : Bytes → XmlParse) (xml : Bytes) (doc : Document)
    (parsed : expat xml = .parsed doc.content.events) (path : List Bytes) (some_ : path ≠ []) :
    getElementValue expat xml path = runMarks [] false (marks path 0 doc.content.events) := by
  rw [getElementValue, parseXmlText, parsed]
  exact run_eq_runMarks path _ 0 [] false (List.length_pos_iff.mpr some_)

/-- The text of the first element at the end of the path, if there is one, is returned if no end tag
before it is taken for another one, and it is whole. If no end tag at all is, it is returned only
then. -/
theorem getElementValue_iff (expat : Bytes → XmlParse) (xml : Bytes) (doc : Document)
    (parsed : expat xml = .parsed doc.content.events) (path : List Bytes) (some_ : path ≠ []) :
    (Readable path doc.content →
      getElementValue expat xml path = .ok (valueOnPath path doc.content)) ∧
    (Unconfused path [] doc.content →
      getElementValue expat xml path = .ok (valueOnPath path doc.content) →
        Readable path doc.content) := by
  have delivered : doc.content.Delivered := ⟨doc.delivered, trivial⟩
  have pieces := Sax.Content.pieces_delivered delivered
  rw [getElementValue_eq expat xml doc parsed path some_, valueOnPath]
  cases first : firstOnPath path [] doc.content with
  | none =>
    obtain ⟨found, index', sub, -, -, run⟩ :=
      marks_sublist some_ doc.content [] 0 (Nat.zero_le _) []
    rw [List.append_nil, marks, List.append_nil] at run
    have nothing : .complete ∉ found := fun member =>
      complete_notMem_pathMarks doc.content [] first (sub.subset member)
    rw [run, runMarks_start, pieceOfPath_eq_none nothing]
    exact ⟨fun _ => rfl, fun _ _ => .inl first⟩
  | some inside =>
    constructor
    · intro readable
      obtain ⟨unconfused, whole⟩ := readable.resolve_left (by simp [first])
      obtain ⟨ms, index', found, sub, -, run⟩ := found_marks some_ [] first unconfused []
      rw [List.append_nil, marks, List.append_nil] at run
      have texts : ∀ piece ∈ textsOf ms, piece ≠ [] := fun piece member => by
        have member' := (sub.filterMap _).subset member
        exact pieces piece (textsOf_pathMarks path [] doc.content ▸ member')
      rw [show depth path [] = 0 from rfl] at run
      rw [run]
      exact (runMarks_found found texts).mpr (whole.sublist first sub)
    · intro unconfused returned
      rw [marks_document some_ doc.content unconfused] at returned
      have texts : ∀ piece ∈ textsOf (pathMarks path [] doc.content), piece ≠ [] := by
        rw [textsOf_pathMarks]
        exact pieces
      refine .inr ⟨unconfusedBefore_of_unconfused unconfused, ?_⟩
      rw [WholeText, first]
      exact (runMarks_found (found_pathMarks [] first) texts).mp returned

/-- A fault, as it is delivered. -/
def soapFault (text : Sax.Content) (delivered : text.Delivered) : Document where
  el := ascii "soap:Fault"
  attr := []
  inside := .element (ascii "soap:Reason") [] (.element (ascii "soap:Text") [] text .nil) .nil
  delivered := ⟨⟨delivered, trivial⟩, trivial⟩

def soapFaultText (text : String) : Bytes :=
  ascii "<soap:Fault><soap:Reason><soap:Text>" ++ ascii text ++
    ascii "</soap:Text></soap:Reason></soap:Fault>"

theorem checkSoapError_denied :
    checkSoapError (fun _ => .parsed (soapFault (.text (ascii "denied") .nil)
      ⟨by decide, trivial⟩).content.events) (soapFaultText "denied") = .ok (ascii "denied") := by
  let doc := soapFault (.text (ascii "denied") .nil) ⟨by decide, trivial⟩
  have unconfused : Unconfused soapFaultPath [] doc.content :=
    ⟨by decide, ⟨by decide, ⟨by decide, trivial, trivial⟩, trivial⟩, trivial⟩
  have whole : WholeText soapFaultPath doc.content :=
    .inr ⟨rfl, fun text other sub => absurd sub.length_le (show ¬ 4 ≤ 2 by decide)⟩
  exact (getElementValue_iff (fun _ => .parsed doc.content.events) (soapFaultText "denied") doc rfl
    soapFaultPath (List.cons_ne_nil _ _)).1
    (.inr ⟨unconfusedBefore_of_unconfused unconfused, whole⟩)

/-- A text with a reference in it is returned up to the reference. -/
theorem text_cut_at_reference : ¬ ∀ (expat : Bytes → XmlParse) (xml : Bytes) (doc : Document),
    expat xml = .parsed doc.content.events → ∀ path ≠ [],
      getElementValue expat xml path = .ok (valueOnPath path doc.content) := by
  intro all
  let text : Sax.Content := .text (ascii "a") (.text (ascii "&") (.text (ascii "b") .nil))
  let doc := soapFault text ⟨by decide, by decide, by decide, trivial⟩
  have found := all (fun _ => .parsed doc.content.events) (soapFaultText "a&amp;b") doc rfl
    soapFaultPath (List.cons_ne_nil _ _)
  have cut : getElementValue (fun _ => .parsed doc.content.events) (soapFaultText "a&amp;b")
      soapFaultPath = .ok (ascii "a") := rfl
  rw [cut] at found
  cases found

end Zn
