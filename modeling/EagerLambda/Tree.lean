import EagerLambda.Handle
import EagerLambda.Integer
import EagerLambda.Operator

/-!
# Program trees

A program is a tree of labelled nodes. A label is a construct of the language, an operator or an
atom. The type does not tie the number of children to the label, since trees come from outside:
every pass checks the shape of the nodes that it takes apart.

## Main definitions

- `Atom`, `Construct`, `Label` — what a node can be labelled with
- `Label.ofKeyword?` — the label that a keyword stands for
- `Tree` — labelled trees, with decidable equality
- `Tree.size` — how many nodes a tree has
-/

namespace EagerLambda

-- ════════════════════════════════════════════════════════════════════════
-- Labels
-- ════════════════════════════════════════════════════════════════════════

/-- An identifier or a constant. -/
inductive Atom
  | identifier (name : Name)
  | integer (value : Integer)
  | string (value : String)
  | truth (value : Bool)
  | nil
  | dummy
  deriving DecidableEq, Repr, Inhabited

/-- The constructs of the language. The core language uses only `lambda`, `gamma`, `tau`, `comma`
and `conditional`; the others abbreviate trees of these. -/
inductive Construct
  | letIn
  | whereIn
  /-- A function definition with its parameters written on the left. -/
  | functionForm
  /-- Definitions made at the same time. -/
  | simultaneous
  /-- A definition that is visible in the next definition only. -/
  | within
  /-- A function written between its two arguments. -/
  | between
  | recursive
  | lambda
  /-- The application of a function to an argument. -/
  | gamma
  /-- A tuple of its children. -/
  | tau
  /-- A list of bound names. -/
  | comma
  | definition
  /-- A condition and the trees for its two outcomes. -/
  | conditional
  deriving DecidableEq, Repr, Inhabited

namespace Construct

/-- Every construct. -/
def all : List Construct :=
  [letIn, whereIn, functionForm, simultaneous, within, between, recursive, lambda, gamma, tau,
    comma, definition, conditional]

/-- The keyword of a construct. -/
def keyword : Construct → String
  | letIn => "let"
  | whereIn => "where"
  | functionForm => "fcn_form"
  | simultaneous => "and"
  | within => "within"
  | between => "@"
  | recursive => "rec"
  | lambda => "lambda"
  | gamma => "gamma"
  | tau => "tau"
  | comma => ","
  | definition => "="
  | conditional => "->"

/-- The construct with this keyword. -/
def ofKeyword? (keyword : String) : Option Construct :=
  all.find? fun construct => construct.keyword = keyword

end Construct

/-- What a node of a program tree is. -/
inductive Label
  | construct (construct : Construct)
  | binary (op : BinaryOp)
  | unary (op : UnaryOp)
  | atom (atom : Atom)
  deriving DecidableEq, Repr, Inhabited

namespace Label

/-- The label with this keyword: a construct, a binary operator or a unary operator. -/
def ofKeyword? (keyword : String) : Option Label :=
  ((Construct.ofKeyword? keyword).map construct).orElse fun _ =>
    ((BinaryOp.ofSymbol? keyword).map binary).orElse fun _ =>
      (UnaryOp.ofSymbol? keyword).map unary

/-- How messages refer to a node with this label. Atoms are all called leaves. -/
def text : Label → String
  | construct c => c.keyword
  | binary op => op.symbol
  | unary op => op.symbol
  | atom _ => "leaf"

end Label

-- ════════════════════════════════════════════════════════════════════════
-- Trees
-- ════════════════════════════════════════════════════════════════════════

/-- A program tree. -/
inductive Tree
  | node (label : Label) (children : List Tree)
  deriving Repr

namespace Tree

/-- The label of the root. -/
def label : Tree → Label
  | node label _ => label

/-- The subtrees below the root. -/
def children : Tree → List Tree
  | node _ children => children

/-- The construct at the root, if the root is one. -/
def construct? (tree : Tree) : Option Construct :=
  match tree.label with
  | .construct c => some c
  | _ => none

/-- Whether the root is labelled with an atom. -/
def isLeaf (tree : Tree) : Bool :=
  match tree.label with
  | .atom _ => true
  | _ => false

/-- An atom without children. -/
def leaf (atom : Atom) : Tree := node (.atom atom) []

instance : Inhabited Tree := ⟨leaf .dummy⟩

/-- An identifier. -/
def identifier (name : Name) : Tree := leaf (.identifier name)

/-- A construct with its children. -/
def of (construct : Construct) (children : List Tree) : Tree := node (.construct construct) children

/-- The application of `function` to `argument`. -/
def apply (function argument : Tree) : Tree := of .gamma [function, argument]

/-- The function that binds `binder` in `body`. -/
def lambda (binder body : Tree) : Tree := of .lambda [binder, body]

/-- The definition of `binder` as `value`. -/
def define (binder value : Tree) : Tree := of .definition [binder, value]

mutual

/-- How many nodes a tree has. -/
def size : Tree → Nat
  | node _ children => sizeAll children + 1

/-- How many nodes the trees of a list have together. -/
def sizeAll : List Tree → Nat
  | [] => 0
  | tree :: rest => tree.size + sizeAll rest

end

-- ════════════════════════════════════════════════════════════════════════
-- Equality
-- ════════════════════════════════════════════════════════════════════════

mutual

/-- Whether two trees are the same. -/
def same : Tree → Tree → Bool
  | node l cs, node m ds => decide (l = m) && sameAll cs ds

/-- Whether two lists of trees are the same. -/
def sameAll : List Tree → List Tree → Bool
  | [], [] => true
  | t :: ts, u :: us => same t u && sameAll ts us
  | _, _ => false

end

mutual

theorem same_iff : ∀ {t u : Tree}, same t u = true ↔ t = u
  | node l cs, node m ds => by simp [same, sameAll_iff]

theorem sameAll_iff : ∀ {ts us : List Tree}, sameAll ts us = true ↔ ts = us
  | [], [] => by simp [sameAll]
  | [], _ :: _ => by simp [sameAll]
  | _ :: _, [] => by simp [sameAll]
  | t :: ts, u :: us => by simp [sameAll, same_iff, sameAll_iff]

end

instance : DecidableEq Tree := fun _ _ => decidable_of_iff _ same_iff

end Tree

end EagerLambda
