/-!
# Builtin functions

The functions that every program finds in its outermost environment.

## Main definitions

- `Builtin` — the builtin functions
- `Builtin.name` — the name each is written with
- `Builtin.arity` — how many arguments each takes
-/

namespace EagerLambda

/-- The builtin functions. -/
inductive Builtin
  /-- Shows its argument and answers it. -/
  | print
  /-- Joins two strings. -/
  | conc
  /-- The first character of a string. -/
  | stem
  /-- A string without its first character. -/
  | stern
  | isInteger
  | isString
  | isTruthValue
  | isFunction
  | isTuple
  | isDummy
  /-- The number of components of a tuple. -/
  | order
  /-- Whether a tuple has no components. -/
  | null
  /-- The decimal digits of an integer. -/
  | itos
  deriving DecidableEq, Repr, Inhabited

namespace Builtin

/-- Every builtin function. -/
def all : List Builtin :=
  [print, conc, stem, stern, isInteger, isString, isTruthValue, isFunction, isTuple, isDummy,
    order, null, itos]

/-- The name a builtin is shown with. -/
def name : Builtin → String
  | print => "Print"
  | conc => "Conc"
  | stem => "Stem"
  | stern => "Stern"
  | isInteger => "Isinteger"
  | isString => "Isstring"
  | isTruthValue => "Istruthvalue"
  | isFunction => "Isfunction"
  | isTuple => "Istuple"
  | isDummy => "Isdummy"
  | order => "Order"
  | null => "Null"
  | itos => "ItoS"

/-- The builtin with this name. -/
def ofName? (name : String) : Option Builtin :=
  all.find? fun builtin => builtin.name = name

/-- How many arguments a builtin collects, one application each, before it computes. -/
def arity : Builtin → Nat
  | conc => 2
  | _ => 1

end Builtin

end EagerLambda
