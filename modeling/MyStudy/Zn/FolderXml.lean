import MyStudy.Zn.FolderInfo

/-!
# The folder list of an account

`get_zimbra_folder` reads the folder tree out of an XML answer. The parser delivers the tags of the
document one after the other, and two handlers keep the path of the open folders in a string.

## Main result

`getZimbraFolder_document`: for a tree of folders, whatever other elements stand between them, the
list has one entry for each folder below the root, in document order and under its full path.
-/
namespace Zn

/-! ### The handlers -/

/-- An attribute of a start tag, and its value. -/
abbrev Attr := Bytes × Bytes

/-- What the parser calls a handler for. -/
inductive XmlEvent where
  | start (el : Bytes) (attr : List Attr)
  | stop (el : Bytes)
  deriving DecidableEq, Repr

/-- `zn_xml_folderdata`. -/
structure FolderData where
  folder : List FolderInfo
  currentTag : Bytes
  deriving DecidableEq, Repr

def FolderData.initial : FolderData := ⟨[], []⟩

abbrev folderTag : Bytes := ascii "folder"

abbrev userRoot : Bytes := ascii "USER_ROOT"

/-- The loop over the attributes: the path afterwards, and the entry unless the loop returns from
the handler. The attributes it knows but does not read are like unknown ones. -/
def attrLoop : List Attr → Bytes → FolderInfo → Bytes × Option FolderInfo
  | [], currentTag, info => (currentTag, some info)
  | (attr, value) :: rest, currentTag, info =>
    if attr = ascii "name" then
      if value = userRoot then (currentTag, none)
      else
        let currentTag := currentTag ++ slash :: value
        attrLoop rest currentTag { info with name := currentTag }
    else if attr = ascii "id" then attrLoop rest currentTag { info with id := atoi value }
    else attrLoop rest currentTag info

def folderElementStart (data : FolderData) (el : Bytes) (attr : List Attr) : FolderData :=
  if el = folderTag then
    match attrLoop attr data.currentTag ⟨[], [], 0⟩ with
    | (currentTag, none) => ⟨data.folder, currentTag⟩
    | (currentTag, some info) => ⟨data.folder ++ [info], currentTag⟩
  else data

def folderElementEnd (data : FolderData) (el : Bytes) : FolderData :=
  if el = folderTag then { data with currentTag := dirname data.currentTag } else data

def FolderData.handle (data : FolderData) : XmlEvent → FolderData
  | .start el attr => folderElementStart data el attr
  | .stop el => folderElementEnd data el

/-- What comes of `XML_ParserCreate` and `XML_Parse`: the handlers' events, also those before an
error. -/
inductive Parse where
  | noParser
  | parsed (events : List XmlEvent)
  | failed (events : List XmlEvent) (line : Nat) (error : Bytes)

/-- The texts `zn_xml_exception` is made of. -/
inductive XmlException where
  | what (text : String)
  | atLine (line : Nat) (error : Bytes)
  deriving DecidableEq, Repr

/-- `_parse_xml` with the handlers of a caller. A failed parse throws the line and the error of the
parser; the source asks the parser for both after it is freed. -/
def parseXml {σ : Type} (expat : Bytes → Parse) (handle : σ → XmlEvent → σ) (userData : σ)
    (xml : Bytes) : Except XmlException σ :=
  match expat xml with
  | .noParser => .error (.what "Create parser error.")
  | .parsed events => .ok (events.foldl handle userData)
  | .failed _ line error => .error (.atLine line error)

def getZimbraFolder (expat : Bytes → Parse) (xml : Bytes) : Except XmlException (List FolderInfo) :=
  (parseXml expat FolderData.handle .initial xml).map FolderData.folder

/-! ### Documents -/

/-- The start tag of a folder below the root. -/
structure FolderElement where
  attr : List Attr
  name : Bytes
  id : Int
  distinct : (attr.map Prod.fst).Nodup
  named : (ascii "name", name) ∈ attr
  identified : (ascii "id", toStringInt id) ∈ attr
  nonempty : name ≠ []
  plain : slash ∉ name
  noRoot : name ≠ userRoot
  range : IsInt id

/-- The start tag of the folder that all others are in. -/
structure RootElement where
  attr : List Attr
  distinct : (attr.map Prod.fst).Nodup
  named : (ascii "name", userRoot) ∈ attr

/-- The start tag of an element that is no folder. -/
structure OtherElement where
  el : Bytes
  attr : List Attr
  noFolder : el ≠ folderTag

/-- A folder or another element, with the elements in it. -/
inductive Node where
  | folder (tag : FolderElement) (children : List Node)
  | other (tag : OtherElement) (children : List Node)

mutual

/-- The tags of an element in document order. -/
def Node.events : Node → List XmlEvent
  | .folder tag children =>
    .start folderTag tag.attr :: (nodesEvents children ++ [.stop folderTag])
  | .other tag children => .start tag.el tag.attr :: (nodesEvents children ++ [.stop tag.el])

def nodesEvents : List Node → List XmlEvent
  | [] => []
  | node :: nodes => node.events ++ nodesEvents nodes

end

/-- The name of a folder: the names on the path from the root. -/
def pathName (path : List Bytes) : Bytes := slash :: [slash].intercalate path

mutual

/-- One entry for each folder of an element in document order; `path` names the folders around. -/
def Node.entries (path : List Bytes) : Node → List FolderInfo
  | .folder tag children =>
    ⟨pathName (path ++ [tag.name]), [], tag.id⟩ :: nodesEntries (path ++ [tag.name]) children
  | .other _ children => nodesEntries path children

def nodesEntries (path : List Bytes) : List Node → List FolderInfo
  | [] => []
  | node :: nodes => node.entries path ++ nodesEntries path nodes

end

/-- A tag that is no folder's. -/
def XmlEvent.NoFolder : XmlEvent → Prop
  | .start el _ => el ≠ folderTag
  | .stop el => el ≠ folderTag

/-- A document with one tree of folders; before and after it come the tags of the elements around
the root and beside it. -/
structure FolderDocument where
  before : List XmlEvent
  root : RootElement
  children : List Node
  after : List XmlEvent
  noFolderBefore : ∀ event ∈ before, event.NoFolder
  noFolderAfter : ∀ event ∈ after, event.NoFolder

namespace FolderDocument

def events (doc : FolderDocument) : List XmlEvent :=
  doc.before ++ .start folderTag doc.root.attr ::
    (nodesEvents doc.children ++ .stop folderTag :: doc.after)

def entries (doc : FolderDocument) : List FolderInfo := nodesEntries [] doc.children

end FolderDocument

/-! ### Attributes -/

/-- The id the loop leaves behind some attributes. -/
def idAfter (attr : List Attr) (id : Int) : Int :=
  attr.foldl (fun id a => if a.1 = ascii "id" then atoi a.2 else id) id

theorem idAfter_append (front back : List Attr) (id : Int) :
    idAfter (front ++ back) id = idAfter back (idAfter front id) := List.foldl_append

theorem idAfter_of_notMem (attr : List Attr) (id : Int)
    (absent : ascii "id" ∉ attr.map Prod.fst) : idAfter attr id = id := by
  induction attr generalizing id with
  | nil => rfl
  | cons a attr ih =>
    rw [List.map_cons, List.mem_cons, not_or] at absent
    have other : ¬ a.1 = ascii "id" := fun same => absent.1 same.symm
    rw [idAfter, List.foldl_cons, if_neg other]
    exact ih id absent.2

/-- With an attribute in its place, no other one has its name. -/
theorem distinct_around (front back : List Attr) (a : Attr)
    (distinct : ((front ++ a :: back).map Prod.fst).Nodup) :
    a.1 ∉ front.map Prod.fst ∧ a.1 ∉ back.map Prod.fst := by
  rw [List.map_append, List.map_cons] at distinct
  obtain ⟨_, rest, apart⟩ := List.nodup_append.mp distinct
  refine ⟨fun early => ?_, (List.nodup_cons.mp rest).1⟩
  exact apart a.1 early a.1 (by simp) rfl

theorem idAfter_of_mem (attr : List Attr) (text : Bytes) (id : Int)
    (distinct : (attr.map Prod.fst).Nodup) (member : (ascii "id", text) ∈ attr) :
    idAfter attr id = atoi text := by
  obtain ⟨front, back, rfl⟩ := List.append_of_mem member
  have later := (distinct_around front back _ distinct).2
  rw [idAfter_append]
  exact idAfter_of_notMem back (atoi text) later

/-- Until the name comes, the loop only takes ids. -/
theorem attrLoop_append (front rest : List Attr) (currentTag : Bytes) (info : FolderInfo)
    (absent : ascii "name" ∉ front.map Prod.fst) :
    attrLoop (front ++ rest) currentTag info =
      attrLoop rest currentTag { info with id := idAfter front info.id } := by
  induction front generalizing info with
  | nil => rfl
  | cons a front ih =>
    rw [List.map_cons, List.mem_cons, not_or] at absent
    have other : ¬ a.1 = ascii "name" := fun same => absent.1 same.symm
    rw [List.cons_append, attrLoop, if_neg other]
    split
    next same =>
      rw [ih _ absent.2, idAfter, idAfter, List.foldl_cons, if_pos same]
    next different =>
      rw [ih _ absent.2, idAfter, idAfter, List.foldl_cons, if_neg different]

theorem attrLoop_folder (tag : FolderElement) (currentTag : Bytes) :
    attrLoop tag.attr currentTag ⟨[], [], 0⟩ =
      (currentTag ++ slash :: tag.name, some ⟨currentTag ++ slash :: tag.name, [], tag.id⟩) := by
  have id (start : Int) : idAfter tag.attr start = tag.id := by
    rw [idAfter_of_mem tag.attr _ start tag.distinct tag.identified,
      atoi_toStringInt tag.id tag.range]
  obtain ⟨front, back, cut⟩ := List.append_of_mem tag.named
  obtain ⟨early, late⟩ := distinct_around front back _ (cut ▸ tag.distinct)
  -- the ids of both sides of the name come together
  have around : idAfter back (idAfter front 0) = tag.id := by
    rw [← id 0, cut, idAfter_append]
    rfl
  rw [cut, attrLoop_append front _ currentTag _ early, attrLoop, if_pos rfl, if_neg tag.noRoot,
    ← List.append_nil back, attrLoop_append back [] _ _ late, attrLoop, around]

theorem attrLoop_root (tag : RootElement) (currentTag : Bytes) (info : FolderInfo) :
    attrLoop tag.attr currentTag info = (currentTag, none) := by
  obtain ⟨front, back, cut⟩ := List.append_of_mem tag.named
  obtain ⟨early, _⟩ := distinct_around front back _ (cut ▸ tag.distinct)
  rw [cut, attrLoop_append front _ currentTag info early, attrLoop, if_pos rfl, if_pos rfl]

/-! ### The path -/

/-- What the handlers keep for the folders around: nothing at the root. -/
def currentTagOf (path : List Bytes) : Bytes := path.flatMap fun name => slash :: name

theorem currentTagOf_snoc (path : List Bytes) (name : Bytes) :
    currentTagOf (path ++ [name]) = currentTagOf path ++ slash :: name := by
  simp [currentTagOf]

theorem currentTagOf_eq_pathName (path : List Bytes) (some_ : path ≠ []) :
    currentTagOf path = pathName path := by
  obtain ⟨first, rest, rfl⟩ := List.exists_cons_of_ne_nil some_
  clear some_
  induction rest generalizing first with
  | nil => simp [currentTagOf, pathName]
  | cons second rest ih =>
    have tail : currentTagOf (second :: rest) = pathName (second :: rest) := ih second
    have step : currentTagOf (first :: second :: rest) =
        slash :: first ++ currentTagOf (second :: rest) := rfl
    rw [step, tail, pathName, pathName, List.intercalate_cons_cons]
    simp

theorem folderElementStart_folder (data : FolderData) (tag : FolderElement) :
    folderElementStart data folderTag tag.attr =
      ⟨data.folder ++ [⟨data.currentTag ++ slash :: tag.name, [], tag.id⟩],
        data.currentTag ++ slash :: tag.name⟩ := by
  rw [folderElementStart, if_pos rfl, attrLoop_folder]

theorem folderElementStart_root (data : FolderData) (tag : RootElement) :
    folderElementStart data folderTag tag.attr = data := by
  rw [folderElementStart, if_pos rfl, attrLoop_root]

theorem FolderData.handle_noFolder (data : FolderData) (event : XmlEvent) (other : event.NoFolder) :
    data.handle event = data := by
  cases event with
  | start el attr => exact if_neg other
  | stop el => exact if_neg other

theorem FolderData.foldl_noFolder (data : FolderData) (events : List XmlEvent)
    (others : ∀ event ∈ events, event.NoFolder) : events.foldl FolderData.handle data = data := by
  induction events with
  | nil => rfl
  | cons event events ih =>
    rw [List.foldl_cons, data.handle_noFolder event (others event (by simp))]
    exact ih fun later member => others later (List.mem_cons_of_mem event member)

mutual

/-- An element adds its entries, and the path is as before behind its closing tag. -/
theorem Node.foldl_events (path : List Bytes) (folder : List FolderInfo) :
    ∀ node : Node, node.events.foldl FolderData.handle ⟨folder, currentTagOf path⟩ =
      ⟨folder ++ node.entries path, currentTagOf path⟩
  | .folder tag children => by
    have start : FolderData.handle ⟨folder, currentTagOf path⟩ (.start folderTag tag.attr) =
        ⟨folder ++ [⟨pathName (path ++ [tag.name]), [], tag.id⟩],
          currentTagOf (path ++ [tag.name])⟩ := by
      rw [FolderData.handle, folderElementStart_folder, ← currentTagOf_snoc,
        currentTagOf_eq_pathName (path ++ [tag.name]) (by simp)]
    -- the name has no slash, so the closing tag takes off just what the start tag added
    have stop (entries : List FolderInfo) :
        FolderData.handle ⟨entries, currentTagOf (path ++ [tag.name])⟩ (.stop folderTag) =
          ⟨entries, currentTagOf path⟩ := by
      rw [FolderData.handle, folderElementEnd, if_pos rfl, currentTagOf_snoc,
        dirname_append _ _ tag.plain]
    rw [Node.events, List.foldl_cons, start, List.foldl_append,
      nodesEvents_foldl (path ++ [tag.name]) _ children, List.foldl_cons, List.foldl_nil, stop,
      Node.entries, List.append_assoc]
    rfl
  | .other tag children => by
    have start (data : FolderData) : data.handle (.start tag.el tag.attr) = data :=
      data.handle_noFolder _ tag.noFolder
    have stop (data : FolderData) : data.handle (.stop tag.el) = data :=
      data.handle_noFolder _ tag.noFolder
    rw [Node.events, List.foldl_cons, start, List.foldl_append,
      nodesEvents_foldl path folder children, List.foldl_cons, List.foldl_nil, stop, Node.entries]

theorem nodesEvents_foldl (path : List Bytes) (folder : List FolderInfo) :
    ∀ nodes : List Node, (nodesEvents nodes).foldl FolderData.handle ⟨folder, currentTagOf path⟩ =
      ⟨folder ++ nodesEntries path nodes, currentTagOf path⟩
  | [] => by rw [nodesEvents, nodesEntries, List.append_nil, List.foldl_nil]
  | node :: nodes => by
    rw [nodesEvents, List.foldl_append, Node.foldl_events path folder node,
      nodesEvents_foldl path (folder ++ node.entries path) nodes, nodesEntries, List.append_assoc]

end

theorem FolderDocument.foldl_events (doc : FolderDocument) :
    (doc.events.foldl FolderData.handle .initial).folder = doc.entries := by
  rw [FolderDocument.events, List.foldl_append,
    FolderData.foldl_noFolder _ doc.before doc.noFolderBefore, List.foldl_cons, FolderData.handle,
    folderElementStart_root, List.foldl_append, FolderData.initial]
  rw [show (⟨[], []⟩ : FolderData) = ⟨[], currentTagOf []⟩ from rfl,
    nodesEvents_foldl [] [] doc.children, List.foldl_cons]
  -- the root's closing tag makes a dot of the empty path, which nothing reads any more
  rw [FolderData.foldl_noFolder _ doc.after doc.noFolderAfter, FolderData.handle, folderElementEnd,
    if_pos rfl]
  rfl

/-- A document becomes the list of its folders below the root. -/
theorem getZimbraFolder_document (expat : Bytes → Parse) (xml : Bytes) (doc : FolderDocument)
    (delivered : expat xml = .parsed doc.events) : getZimbraFolder expat xml = .ok doc.entries := by
  rw [getZimbraFolder, parseXml, delivered]
  exact congrArg Except.ok doc.foldl_events

def nestedFoldersXml : Bytes := ascii <|
  "<r><folder id='1' name='USER_ROOT'><folder name='Inbox' id='2'><acl>" ++
    "<folder id='300' l='2' name='a'/></acl></folder></folder></r>"

/-- The document of `nestedFoldersXml`. -/
def nestedFolders : FolderDocument where
  before := [.start (ascii "r") []]
  root := ⟨[(ascii "id", ascii "1"), (ascii "name", userRoot)], by decide, by decide⟩
  children :=
    [.folder ⟨[(ascii "name", ascii "Inbox"), (ascii "id", ascii "2")], ascii "Inbox", 2, by decide,
        by decide, by decide +kernel, by decide, by decide, by decide, ⟨by decide, by decide⟩⟩
      [.other ⟨ascii "acl", [], by decide⟩
        [.folder ⟨[(ascii "id", ascii "300"), (ascii "l", ascii "2"), (ascii "name", ascii "a")],
            ascii "a", 300, by decide, by decide, by decide +kernel, by decide, by
            decide, by decide,
            ⟨by decide, by decide⟩⟩ []]]]
  after := [.stop (ascii "r")]
  noFolderBefore := by simp [XmlEvent.NoFolder, ascii, folderTag]
  noFolderAfter := by simp [XmlEvent.NoFolder, ascii, folderTag]

theorem getZimbraFolder_nestedFolders :
    getZimbraFolder (fun _ => .parsed
      [.start (ascii "r") [], .start folderTag [(ascii "id", ascii "1"), (ascii "name", userRoot)],
        .start folderTag [(ascii "name", ascii "Inbox"), (ascii "id", ascii "2")],
        .start (ascii "acl") [],
        .start folderTag [(ascii "id", ascii "300"), (ascii "l", ascii "2"),
        (ascii "name", ascii "a")],
        .stop folderTag, .stop (ascii "acl"), .stop folderTag, .stop folderTag, .stop (ascii "r")])
      nestedFoldersXml = .ok [⟨ascii "/Inbox", [], 2⟩, ⟨ascii "/Inbox/a", [], 300⟩] :=
  getZimbraFolder_document _ nestedFoldersXml nestedFolders rfl

end Zn
