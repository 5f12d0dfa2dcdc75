import MyStudy.Lib.Bytes

/-!
# Documents as events

What a parser delivers of a document: the tags, and the character data in pieces that it cuts as it
likes. Handlers with a state go through the events, and may fail.
-/

namespace Sax

/-- An attribute of a start tag, and its value. -/
abbrev Attr := Bytes × Bytes

/-- What handlers are called for. -/
inductive Event where
  | start (el : Bytes) (attr : List Attr)
  | chars (piece : Bytes)
  | stop (el : Bytes)
  deriving DecidableEq, Repr

/-- The inside of an element: pieces of character data, and elements. -/
inductive Content where
  | nil
  | text (piece : Bytes) (rest : Content)
  | element (el : Bytes) (attr : List Attr) (inside rest : Content)
  deriving DecidableEq, Repr

namespace Content

/-- What is delivered of the inside of an element. -/
def events : Content → List Event
  | nil => []
  | text piece rest => .chars piece :: rest.events
  | element el attr inside rest => .start el attr :: (inside.events ++ .stop el :: rest.events)

/-- All character data inside an element. -/
def string : Content → Bytes
  | nil => []
  | text piece rest => piece ++ rest.string
  | element _ _ inside rest => inside.string ++ rest.string

/-- The pieces they come in. -/
def pieces : Content → List Bytes
  | nil => []
  | text piece rest => piece :: rest.pieces
  | element _ _ inside rest => inside.pieces ++ rest.pieces

theorem flatten_pieces (content : Content) : content.pieces.flatten = content.string := by
  induction content with
  | nil => rfl
  | text piece rest ih => exact congrArg (piece ++ ·) ih
  | element el attr inside rest ihInside ihRest =>
    rw [pieces, string, List.flatten_append, ihInside, ihRest]

/-- A parser delivers no empty pieces. -/
def Delivered : Content → Prop
  | nil => True
  | text piece rest => piece ≠ [] ∧ rest.Delivered
  | element _ _ inside rest => inside.Delivered ∧ rest.Delivered

theorem pieces_delivered {content : Content} (delivered : content.Delivered) :
    ∀ piece ∈ content.pieces, piece ≠ [] := by
  induction content with
  | nil => exact fun _ member => absurd member List.not_mem_nil
  | text piece rest ih => exact List.forall_mem_cons.mpr ⟨delivered.1, ih delivered.2⟩
  | element el attr inside rest ihInside ihRest =>
    exact List.forall_mem_append.mpr ⟨ihInside delivered.1, ihRest delivered.2⟩

/-- There is no element of this name, at any depth. -/
def Without (name : Bytes) : Content → Prop
  | nil => True
  | text _ rest => rest.Without name
  | element el _ inside rest => el ≠ name ∧ inside.Without name ∧ rest.Without name

/-- There are no elements. -/
def OnlyText : Content → Prop
  | nil => True
  | text _ rest => rest.OnlyText
  | element .. => False

/-- The names of the elements, without those inside them. -/
def children : Content → List Bytes
  | nil => []
  | text _ rest => rest.children
  | element el _ _ rest => el :: rest.children

instance decidableOnlyText : DecidablePred OnlyText
  | nil => isTrue trivial
  | text _ rest => decidableOnlyText rest
  | element .. => isFalse id

end Content

section Handlers

variable {σ ε : Type} (handle : σ → Event → Except ε σ)

/-- The handlers over a document. -/
def run (s : σ) (events : List Event) : Except ε σ := events.foldlM handle s

variable {handle}

theorem run_cons (s : σ) (event : Event) (events : List Event) :
    run handle s (event :: events) = (handle s event).bind fun t => run handle t events := rfl

theorem run_append (s : σ) (events more : List Event) :
    run handle s (events ++ more) = (run handle s events).bind fun t => run handle t more :=
  List.foldlM_append

/-- Events that leave the state as it is. -/
theorem run_idle (s : σ) (events : List Event) (idle : ∀ event ∈ events, handle s event = .ok s) :
    run handle s events = .ok s := by
  induction events with
  | nil => rfl
  | cons event events ih =>
    rw [run_cons, idle event List.mem_cons_self]
    exact ih fun other member => idle other (List.mem_cons_of_mem _ member)

end Handlers

end Sax
