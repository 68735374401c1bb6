import EagerLambda.Error
import EagerLambda.Tree

/-!
# The core of the language

Desugaring expresses a program tree in the core constructs. Children are expanded before their
parent, from left to right, so a construct is only ever expanded over core children:

    let (X = E) P              gamma (lambda X P) E
    where P (X = E)            gamma (lambda X P) E
    fcn_form P V1 .. Vn E      P = lambda V1 (.. (lambda Vn E))
    and (X1 = E1) .. (Xn = En) (, X1 .. Xn) = tau E1 .. En
    within (X1 = E1) (X2 = E2) X2 = gamma (lambda X1 E2) E1
    @ E1 N E2                  gamma (gamma N E1) E2
    rec (X = E)                X = gamma Y (lambda X E)
    lambda V1 .. Vn E          lambda V1 (.. (lambda Vn E))

What hangs below an atom is not part of the program and stays as it is. Constructs that are core
already are not checked here.

## Main definitions

- `Tree.curry` — a function of several parameters as nested functions
- `Construct.expand` — one construct over core children
- `Tree.desugar` — a whole tree, with the number of constructs that were expanded
-/

namespace EagerLambda

namespace Tree

/-- The nested functions that bind the trees of a list in turn, the last of which is the body. -/
def curry (first : Tree) : List Tree → Tree
  | [] => first
  | second :: rest => lambda first (curry second rest)

/-- The binder and the value of a definition that stands inside the construct `context`. -/
def definition (context : Construct) : Tree → Except Error (Tree × Tree)
  | node (.construct .definition) [binder, value] => .ok (binder, value)
  | node (.construct .definition) children =>
    .error (.malformedNode Construct.definition.keyword (.childCount "exactly 2" children.length))
  | node label _ => .error (.malformedNode context.keyword (.notDefinition label.text))

/-- The binders and the values of a list of definitions that stand inside `context`. -/
def definitions (context : Construct) : List Tree → Except Error (List Tree × List Tree)
  | [] => .ok ([], [])
  | tree :: rest => do
    let (binder, value) ← tree.definition context
    let (binders, values) ← definitions context rest
    .ok (binder :: binders, value :: values)

end Tree

namespace Construct

/-- The error for a construct over the wrong number of children. -/
def wrongCount (construct : Construct) (expected : String) (children : List Tree) : Error :=
  .malformedNode construct.keyword (.childCount expected children.length)

/-- The core tree that a construct abbreviates over core children, or nothing if the construct
is core already. -/
def expand (construct : Construct) (children : List Tree) : Except Error (Option Tree) :=
  match construct, children with
  | letIn, [equation, body] => do
    let (binder, value) ← equation.definition letIn
    .ok (some (.apply (.lambda binder body) value))
  | letIn, children => .error (letIn.wrongCount "exactly 2" children)
  | whereIn, [body, equation] => do
    let (binder, value) ← equation.definition whereIn
    .ok (some (.apply (.lambda binder body) value))
  | whereIn, children => .error (whereIn.wrongCount "exactly 2" children)
  | functionForm, name :: parameter :: second :: rest =>
    .ok (some (.define name (.curry parameter (second :: rest))))
  | functionForm, children => .error (functionForm.wrongCount "at least 3" children)
  | simultaneous, first :: second :: rest => do
    let (binders, values) ← Tree.definitions simultaneous (first :: second :: rest)
    .ok (some (.define (.of comma binders) (.of tau values)))
  | simultaneous, children => .error (simultaneous.wrongCount "at least 2" children)
  | within, [outer, inner] => do
    let (outerBinder, outerValue) ← outer.definition within
    let (binder, value) ← inner.definition within
    .ok (some (.define binder (.apply (.lambda outerBinder value) outerValue)))
  | within, children => .error (within.wrongCount "exactly 2" children)
  | between, [left, function, right] =>
    .ok (some (.apply (.apply function left) right))
  | between, children => .error (between.wrongCount "exactly 3" children)
  | recursive, [equation] => do
    let (binder, value) ← equation.definition recursive
    .ok (some (.define binder (.apply (.identifier .fixpoint) (.lambda binder value))))
  | recursive, children => .error (recursive.wrongCount "exactly 1" children)
  | lambda, [_, _] => .ok none
  | lambda, first :: second :: rest => .ok (some (.curry first (second :: rest)))
  | lambda, children => .error (lambda.wrongCount "at least 2" children)
  | gamma, _ => .ok none
  | tau, _ => .ok none
  | comma, _ => .ok none
  | definition, _ => .ok none
  | conditional, _ => .ok none

end Construct

/-- A core tree and how many constructs were expanded on the way to it. -/
structure Desugared where
  tree : Tree
  expansions : Nat
  deriving Repr

namespace Tree

mutual

/-- The core form of a tree, or the error of the first node, children before parents, that does
not have the shape its construct asks for. -/
def desugar : Tree → Except Error Desugared
  | node (.atom a) children => .ok ⟨node (.atom a) children, 0⟩
  | node (.binary op) children => do
    let (children, expansions) ← desugarAll children
    .ok ⟨node (.binary op) children, expansions⟩
  | node (.unary op) children => do
    let (children, expansions) ← desugarAll children
    .ok ⟨node (.unary op) children, expansions⟩
  | node (.construct c) children => do
    let (children, expansions) ← desugarAll children
    match ← c.expand children with
    | none => .ok ⟨of c children, expansions⟩
    | some tree => .ok ⟨tree, expansions + 1⟩

/-- The core forms of the trees of a list and how many constructs were expanded in them. -/
def desugarAll : List Tree → Except Error (List Tree × Nat)
  | [] => .ok ([], 0)
  | tree :: rest => do
    let first ← tree.desugar
    let (others, expansions) ← desugarAll rest
    .ok (first.tree :: others, first.expansions + expansions)

end

end Tree

end EagerLambda
