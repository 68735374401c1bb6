import EagerLambda.Error
import EagerLambda.Operator
import EagerLambda.Value

/-!
# Operators on values

The language is dynamically typed: an operator looks at the kinds of its operands when it is
applied. Arithmetic takes integers and is exact, comparisons take two integers or two strings, and
the tuple operator takes any value on its right.

## Main definitions

- `BinaryOp.onIntegers?`, `onTruths?`, `onStrings?` — an operator on operands of one kind
- `BinaryOp.apply` — a binary operator on any two values
- `UnaryOp.apply` — a unary operator on any value
-/

namespace EagerLambda

variable {Code : Type}

/-- The integer that an operation answers, or the error that it does not fit. -/
def integerResult (operation : String) (result : Option Integer) :
    Except Error (Value Code) :=
  match result with
  | some n => .ok (.integer n)
  | none => .error (.integerOverflow operation)

/-- Raises `base` to `exponent`, which must be nonnegative and below the bound for exponents. -/
def power (base exponent : Integer) : Except Error (Value Code) :=
  if 0 ≤ exponent.toInt ∧ exponent.toInt < Integer.exponentLimit then
    integerResult "exponentiation" (Integer.pow? base exponent.toInt.toNat)
  else
    .error (.typeMismatch "a non-negative exponent" (Integer.text exponent))

namespace BinaryOp

/-- The operator on two integers, if it takes integers. Division cuts off toward zero. -/
def onIntegers? (op : BinaryOp) (a b : Integer) : Option (Except Error (Value Code)) :=
  match op with
  | add => some (integerResult "addition" (Integer.add? a b))
  | sub => some (integerResult "subtraction" (Integer.sub? a b))
  | mul => some (integerResult "multiplication" (Integer.mul? a b))
  | div =>
    some (if b = 0 then .error .divisionByZero
      else integerResult "division" (Integer.div? a b))
  | pow => some (power a b)
  | eq => some (.ok (.truth (decide (a = b))))
  | ne => some (.ok (.truth (decide (a ≠ b))))
  | gr => some (.ok (.truth (decide (b < a))))
  | ge => some (.ok (.truth (decide (b ≤ a))))
  | ls => some (.ok (.truth (decide (a < b))))
  | le => some (.ok (.truth (decide (a ≤ b))))
  | or => none
  | and => none
  | aug => none

/-- The operator on two truth values, if it takes truth values. -/
def onTruths? (op : BinaryOp) (a b : Bool) : Option Bool :=
  match op with
  | or => some (a || b)
  | and => some (a && b)
  | eq => some (a == b)
  | ne => some (a != b)
  | _ => none

/-- The operator on two strings, if it takes strings. Strings are ordered character by
character. -/
def onStrings? (op : BinaryOp) (a b : String) : Option Bool :=
  match op with
  | eq => some (decide (a = b))
  | ne => some (decide (a ≠ b))
  | gr => some (decide (b < a))
  | ge => some (decide (¬ a < b))
  | ls => some (decide (a < b))
  | le => some (decide (¬ b < a))
  | _ => none

/-- What an operator accepts, in the words of a message. -/
def expected : BinaryOp → String
  | add => "integer operands"
  | sub => "integer operands"
  | mul => "integer operands"
  | div => "integer operands"
  | pow => "integer operands"
  | gr => "two integers or two strings"
  | ge => "two integers or two strings"
  | ls => "two integers or two strings"
  | le => "two integers or two strings"
  | or => "truthvalue operands"
  | and => "truthvalue operands"
  | eq => "operands of the same kind"
  | ne => "operands of the same kind"
  | aug => "a tuple on the left of `aug`"

/-- The error for operands that an operator does not take. -/
def mismatch (op : BinaryOp) (left right : Value Code) : Error :=
  .typeMismatch op.expected s!"{left.typeName} {op.symbol} {right.typeName}"

/-- The tuple on the left with the value on the right as its last component. -/
def augment (left right : Value Code) : Except Error (Value Code) :=
  match left with
  | .tuple components => .ok (.tuple (components ++ [right]))
  | _ => .error (.typeMismatch aug.expected left.typeName)

/-- The operator on operands of one kind, if both are of one kind that it takes. -/
def onSameKind? (op : BinaryOp) : Value Code → Value Code → Option (Except Error (Value Code))
  | .integer a, .integer b => op.onIntegers? a b
  | .truth a, .truth b => (op.onTruths? a b).map fun t => .ok (.truth t)
  | .string a, .string b => (op.onStrings? a b).map fun t => .ok (.truth t)
  | _, _ => none

/-- The value of a binary operator. The left operand is the one written first. -/
def apply (op : BinaryOp) (left right : Value Code) : Except Error (Value Code) :=
  if op = aug then augment left right
  else (op.onSameKind? left right).getD (.error (op.mismatch left right))

end BinaryOp

/-- The value of a unary operator. What `print` shows is left to whoever keeps the output. -/
def UnaryOp.apply (op : UnaryOp) (operand : Value Code) : Except Error (Value Code) :=
  match op, operand with
  | not, .truth b => .ok (.truth !b)
  | not, other => .error (.typeMismatch "truthvalue" other.typeName)
  | neg, .integer n => integerResult "negation" (Integer.neg? n)
  | neg, other => .error (.typeMismatch "integer" other.typeName)
  | print, value => .ok value

end EagerLambda
