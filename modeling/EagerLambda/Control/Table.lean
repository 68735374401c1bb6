import EagerLambda.Tree
import EagerLambda.NameTable

/-!
# Control tables

A control table is a program in the form the machine executes: numbered control structures, each
a sequence of items. The items of a structure are executed from the last to the first. A function
body or an arm of a conditional is a structure of its own, which items refer to by number.

## Main definitions

- `Control.Item` — one instruction
- `Control.Structure` — a numbered sequence of items
- `Control.Table` — all structures of a program
- `Control.Item.describe`, `Control.Table.dump` — their written form
-/

namespace EagerLambda

/-- How an atom is written in a listing. -/
def Atom.describe (names : NameTable) : Atom → String
  | identifier name => names.text name
  | integer value => value.text
  | string value => s!"'{value}'"
  | truth true => "true"
  | truth false => "false"
  | nil => "nil"
  | dummy => "dummy"

namespace Control

/-- An element of a control structure. -/
inductive Item
  /-- Loads a constant or the value of an identifier. -/
  | load (atom : Atom)
  /-- Applies the operand on top to the one beneath it. -/
  | gamma
  | binary (op : BinaryOp)
  | unary (op : UnaryOp)
  /-- Makes a function that binds `params` and computes `body`. -/
  | lambda (body : ControlId) (params : List Name)
  /-- Makes a tuple of this many operands. -/
  | tau (count : Nat)
  /-- The two structures that the `beta` above this item chooses from. -/
  | branch (thenId elseId : ControlId)
  /-- Chooses between the two structures of the branch beneath it. -/
  | beta
  deriving DecidableEq, Repr, Inhabited

namespace Item

/-- How a pair of branch targets is written. -/
def branchText (thenId elseId : ControlId) : String := s!"{thenId.text}|{elseId.text}"

/-- How an item is written in a listing. -/
def describe (names : NameTable) : Item → String
  | load atom => atom.describe names
  | gamma => "gamma"
  | binary op => op.symbol
  | unary op => op.symbol
  | lambda body params =>
    let bound := ",".intercalate (params.map names.text)
    s!"λ{body.index}[{bound}]"
  | tau count => s!"τ{count}"
  | branch thenId elseId => branchText thenId elseId
  | beta => "β"

/-- The structures that an item refers to. -/
def targets : Item → List ControlId
  | lambda body _ => [body]
  | branch thenId elseId => [thenId, elseId]
  | _ => []

end Item

/-- A numbered control structure. -/
structure Structure where
  id : ControlId
  /-- The items; the last one is executed first. -/
  items : List Item
  deriving DecidableEq, Repr, Inhabited

/-- The items of a structure, the one that is executed first at the head. -/
def Structure.executionOrder (cs : Structure) : List Item := cs.items.reverse

/-- How a structure is written: its number and its items on one line. -/
def Structure.describe (names : NameTable) (cs : Structure) : String :=
  let items := " ".intercalate (cs.items.map (Item.describe names))
  s!"{cs.id.text}: {items}\n"

/-- The control structures of a program, each at the position that is its number. -/
structure Table where
  structures : Array Structure
  deriving DecidableEq, Repr, Inhabited

namespace Table

/-- The table whose structures are the given sequences of items, numbered in order. -/
def ofItems (sequences : List (List Item)) : Table :=
  ⟨(sequences.zipIdx.map fun (items, index) => ⟨⟨index⟩, items⟩).toArray⟩

/-- The structure with this number. -/
def get? (table : Table) (id : ControlId) : Option Structure := table.structures[id.index]?

/-- The structure the program starts in. -/
def entry? (table : Table) : Option Structure := table.get? .entry

/-- How many structures the table has. -/
def size (table : Table) : Nat := table.structures.size

/-- Whether the table has no structures. -/
def isEmpty (table : Table) : Bool := table.structures.isEmpty

/-- The listing of a table, one line per structure. -/
def dump (names : NameTable) (table : Table) : String :=
  String.join (table.structures.toList.map (Structure.describe names))

end Table

end Control

end EagerLambda
