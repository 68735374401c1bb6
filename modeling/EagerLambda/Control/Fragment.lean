import EagerLambda.Chain
import EagerLambda.Control.Table
import EagerLambda.Error

/-!
# From core trees to control tables

A core tree is laid out as a sequence of items, operator before operands, and the structures that
the sequence refers to. Structures are numbered in the order in which a walk over the tree reaches
them: the program is structure 0, a function body or an arm of a conditional takes the next number
when the walk reaches it and is laid out, with everything below it, before the walk goes on.

## Main definitions

- `Tree.boundNames` — the names that a function binds
- `Control.Fragment` — the items of a tree and the structures it adds
- `Tree.fragment` — the layout of a tree, given the next free number
- `Control.Table.ofTree` — the control table of a core tree
-/

namespace EagerLambda

open Control

/-- The error of a control fault. -/
def controlError {α : Type} (fault : ControlFault) : Except Error α :=
  .error (.malformedControl fault)

namespace Tree

-- ════════════════════════════════════════════════════════════════════════
-- Shape of core trees
-- ════════════════════════════════════════════════════════════════════════

/-- The name of a bare identifier. -/
def name? : Tree → Option Name
  | node (.atom (.identifier name)) [] => some name
  | _ => none

/-- The names in a parameter list, each a bare identifier. -/
def parameterNames : List Tree → Except Error (List Name)
  | [] => .ok []
  | tree :: rest =>
    match tree.name? with
    | none => controlError (.parameterNotName tree.label.text)
    | some name => do
      let names ← parameterNames rest
      .ok (name :: names)

/-- The names that a function with this binder binds: one identifier, or a nonempty list of
them. -/
def boundNames (binder : Tree) : Except Error (List Name) :=
  match binder with
  | node (.construct .comma) (first :: rest) => parameterNames (first :: rest)
  | binder =>
    match binder.name? with
    | none => controlError (.binderNotName binder.label.text)
    | some name => .ok [name]

/-- The error for a node with the wrong number of children. -/
def wrongCount {α : Type} (label : Label) (expected : Nat) (children : List Tree) :
    Except Error α :=
  controlError (.childCount label.text expected children.length)

end Tree

-- ════════════════════════════════════════════════════════════════════════
-- Layout
-- ════════════════════════════════════════════════════════════════════════

namespace Control

/-- A laid out tree: its items, the structures it adds to the table in order of their numbers, and
the first number that is free after them. -/
structure Fragment where
  items : Chain Item
  structures : Chain (List Item)
  next : Nat
  deriving DecidableEq, Repr, Inhabited

namespace Fragment

/-- The fragment without items and structures. -/
def empty (next : Nat) : Fragment := ⟨.empty, .empty, next⟩

/-- The fragment of a single item. -/
def single (item : Item) (next : Nat) : Fragment := ⟨.single item, .empty, next⟩

/-- Two fragments, the structures of the second numbered after those of the first. -/
def append (first second : Fragment) : Fragment :=
  ⟨first.items.join second.items, first.structures.join second.structures, second.next⟩

/-- A fragment with an item before its items. -/
def cons (item : Item) (fragment : Fragment) : Fragment :=
  { fragment with items := .join (.single item) fragment.items }

/-- The structures of a tree that is laid out as a structure of its own: its items come first. -/
def asStructures (fragment : Fragment) : Chain (List Item) :=
  .join (.single fragment.items.toList) fragment.structures

end Fragment

/-- The number for the next structure, unless all numbers are taken. -/
def allocate (next : Nat) : Except Error ControlId :=
  if next < handleLimit then .ok ⟨next⟩ else controlError .tooManyStructures

end Control

namespace Tree

mutual

/-- The layout of a core tree when `next` is the first free structure number. -/
def fragment (next : Nat) : Tree → Except Error Fragment
  | node (.atom a) [] => .ok (.single (.load a) next)
  | node (.atom a) children => wrongCount (.atom a) 0 children
  | node (.binary op) [left, right] => do
    let leftCode ← fragment next left
    let rightCode ← fragment leftCode.next right
    .ok ((leftCode.append rightCode).cons (.binary op))
  | node (.binary op) children => wrongCount (.binary op) 2 children
  | node (.unary op) [operand] => do
    let operandCode ← fragment next operand
    .ok (operandCode.cons (.unary op))
  | node (.unary op) children => wrongCount (.unary op) 1 children
  | node (.construct .lambda) [binder, body] => do
    let params ← binder.boundNames
    let bodyId ← allocate next
    let bodyCode ← fragment (next + 1) body
    .ok ⟨.single (.lambda bodyId params), bodyCode.asStructures, bodyCode.next⟩
  | node (.construct .lambda) children => wrongCount (.construct .lambda) 2 children
  | node (.construct .conditional) [condition, thenTree, elseTree] => do
    let thenId ← allocate next
    let thenCode ← fragment (next + 1) thenTree
    let elseId ← allocate thenCode.next
    let elseCode ← fragment (thenCode.next + 1) elseTree
    let conditionCode ← fragment elseCode.next condition
    let arms : Fragment := ⟨.empty, thenCode.asStructures.join elseCode.asStructures, elseCode.next⟩
    .ok (((arms.append conditionCode).cons .beta).cons (.branch thenId elseId))
  | node (.construct .conditional) children => wrongCount (.construct .conditional) 3 children
  | node (.construct .tau) children => do
    let components ← fragmentAll next children
    .ok (components.cons (.tau children.length))
  | node (.construct .gamma) [function, argument] => do
    let functionCode ← fragment next function
    let argumentCode ← fragment functionCode.next argument
    .ok ((functionCode.append argumentCode).cons .gamma)
  | node (.construct .gamma) children => wrongCount (.construct .gamma) 2 children
  | node (.construct c) _ => controlError (.notCore c.keyword)

/-- The layout of the trees of a list one after the other. -/
def fragmentAll (next : Nat) : List Tree → Except Error Fragment
  | [] => .ok (.empty next)
  | tree :: rest => do
    let first ← tree.fragment next
    let others ← fragmentAll first.next rest
    .ok (first.append others)

end

end Tree

-- ════════════════════════════════════════════════════════════════════════
-- Tables
-- ════════════════════════════════════════════════════════════════════════

namespace Control.Table

/-- What is wrong with the structure at position `index` of a table of `count` structures: it may
be empty or refer to a structure that does not exist. -/
def structureFault? (count : Nat) (items : List Item) (index : Nat) : Option ControlFault :=
  if items.isEmpty then some (.emptyStructure index)
  else
    ((items.flatMap Item.targets).find? fun id => count ≤ id.index).map
      (.missingReference index)

/-- The first fault in a table with these sequences of items. -/
def fault? (sequences : List (List Item)) : Option ControlFault :=
  let count := sequences.length
  sequences.zipIdx.findSome? fun (items, index) => structureFault? count items index

/-- The table of these sequences of items, provided that no sequence is empty and that every
reference has a target. -/
def ofItems? (sequences : List (List Item)) : Except Error Table :=
  match fault? sequences with
  | some fault => controlError fault
  | none => .ok (ofItems sequences)

/-- The control table of a core tree. -/
def ofTree (tree : Tree) : Except Error Table := do
  let _ ← allocate 0
  let program ← tree.fragment 1
  ofItems? program.asStructures.toList

end Control.Table

end EagerLambda
