import EagerLambda.Handle

/-!
# Tables of names

A `NameTable` gives every identifier text a handle. A text is entered once: interning it again
answers the handle it already has. Handles are handed out in order and never change, and the
texts that the language itself uses are entered first, so their handles are constants.

## Main definitions

- `NameTable.initial` — the table that holds the reserved texts only
- `NameTable.intern` — the handle of a text, entering it if it is new
- `NameTable.text?`, `NameTable.text` — the text of a handle
-/

namespace EagerLambda

/-- Identifier texts, each at the position that is its handle. -/
structure NameTable where
  texts : List String
  deriving DecidableEq, Repr

namespace NameTable

/-- The refusal of a new text by a table that has no handle left. -/
structure Full where
  /-- How many texts the table holds. -/
  count : Nat
  deriving DecidableEq, Repr

/-- The sentence that reports a full table. -/
def Full.message (full : Full) : String :=
  s!"interner exceeded capacity: {full.count} strings, max is {handleLimit - 1}"

/-- The table every program starts from. -/
def initial : NameTable := ⟨Name.reservedTexts⟩

instance : Inhabited NameTable := ⟨initial⟩

/-- How many texts the table holds. -/
def size (names : NameTable) : Nat := names.texts.length

/-- Whether no text was entered beside the reserved ones. -/
def isEmpty (names : NameTable) : Bool := names.size ≤ Name.reservedTexts.length

/-- The handle of a text that was entered before. -/
def find? (names : NameTable) (text : String) : Option Name :=
  (names.texts.idxOf? text).map Name.mk

/-- The handle of `text` and the table that holds it. A text that is new goes to the end. -/
def intern (names : NameTable) (text : String) : Except Full (Name × NameTable) :=
  match names.find? text with
  | some name => .ok (name, names)
  | none =>
    if names.size < handleLimit then
      .ok (⟨names.size⟩, ⟨names.texts ++ [text]⟩)
    else
      .error ⟨names.size⟩

/-- The text of a handle, if the table has given that handle out. -/
def text? (names : NameTable) (name : Name) : Option String := names.texts[name.index]?

/-- The text of a handle; a handle from elsewhere reads as the empty text. -/
def text (names : NameTable) (name : Name) : String := (names.text? name).getD ""

end NameTable

end EagerLambda
