/-!
# Operators

The binary and unary operators of the language and the symbols that stand for them. Every operator
has one canonical symbol; the comparisons can also be written with mathematical signs.

## Main definitions

- `BinaryOp`, `BinaryOp.symbol`, `BinaryOp.ofSymbol?`
- `UnaryOp`, `UnaryOp.symbol`, `UnaryOp.ofSymbol?`
-/

namespace EagerLambda

/-- The operators that take two operands. -/
inductive BinaryOp
  | add
  | sub
  | mul
  | div
  | pow
  | eq
  | ne
  | gr
  | ge
  | ls
  | le
  | or
  | and
  /-- Extends a tuple by one component. -/
  | aug
  deriving DecidableEq, Repr, Inhabited

namespace BinaryOp

/-- Every binary operator. -/
def all : List BinaryOp :=
  [add, sub, mul, div, pow, eq, ne, gr, ge, ls, le, or, and, aug]

/-- The canonical symbol. -/
def symbol : BinaryOp → String
  | add => "+"
  | sub => "-"
  | mul => "*"
  | div => "/"
  | pow => "**"
  | eq => "eq"
  | ne => "ne"
  | gr => "gr"
  | ge => "ge"
  | ls => "ls"
  | le => "le"
  | or => "or"
  | and => "&"
  | aug => "aug"

/-- The second spelling of the comparisons. -/
def alias? : BinaryOp → Option String
  | gr => some ">"
  | ge => some ">="
  | ls => some "<"
  | le => some "<="
  | _ => none

/-- The operator that is written `symbol`, in either spelling. -/
def ofSymbol? (symbol : String) : Option BinaryOp :=
  all.find? fun op => op.symbol = symbol ∨ op.alias? = some symbol

end BinaryOp

/-- The operators that take one operand. -/
inductive UnaryOp
  | not
  | neg
  /-- Shows its operand and leaves it as the result. -/
  | print
  deriving DecidableEq, Repr, Inhabited

namespace UnaryOp

/-- Every unary operator. -/
def all : List UnaryOp := [not, neg, print]

/-- The symbol of an operator. -/
def symbol : UnaryOp → String
  | not => "not"
  | neg => "neg"
  | print => "print"

/-- The operator that is written `symbol`. -/
def ofSymbol? (symbol : String) : Option UnaryOp :=
  all.find? fun op => op.symbol = symbol

end UnaryOp

end EagerLambda
