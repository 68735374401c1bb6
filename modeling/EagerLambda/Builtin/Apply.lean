import EagerLambda.Error
import EagerLambda.Operator.Apply
import EagerLambda.Value

/-!
# Builtins on values

A builtin takes its arguments one at a time. Until it has all of them, applying it answers a
partial application that remembers what it received; the last argument makes it compute.

## Main definitions

- `Builtin.apply` — a builtin applied to one more argument
- `Builtin.shown` — what that application shows
-/

namespace EagerLambda

variable {Code : Type}

/-- A string without its first character, after that character: both empty for the empty
string. -/
def splitFirst (s : String) : String × String :=
  match s.toList with
  | [] => ("", "")
  | first :: rest => (String.singleton first, String.ofList rest)

/-- The string that a value is. -/
def Value.string? : Value Code → Except Error String
  | string s => .ok s
  | other => .error (.typeMismatch "string" other.typeName)

/-- The components of the tuple that a value is. -/
def Value.components? : Value Code → Except Error (List (Value Code))
  | tuple components => .ok components
  | other => .error (.typeMismatch "tuple" other.typeName)

namespace Builtin

/-- Joins two strings. The first is what was received before, if anything was. -/
def join (received : List (Value Code)) (argument : Value Code) : Except Error (Value Code) :=
  match received, argument with
  | .string a :: _, .string b => .ok (.string (a ++ b))
  | .string _ :: _, other => .error (.typeMismatch "string" other.typeName)
  | other :: _, _ => .error (.typeMismatch "string" other.typeName)
  | [], _ => .error (.typeMismatch "string" "nothing")

/-- The value of a builtin whose last argument is `argument`. -/
def compute (builtin : Builtin) (received : List (Value Code)) (argument : Value Code) :
    Except Error (Value Code) :=
  match builtin with
  | print => .ok argument
  | conc => join received argument
  | stem => do
    let s ← argument.string?
    .ok (.string (splitFirst s).1)
  | stern => do
    let s ← argument.string?
    .ok (.string (splitFirst s).2)
  | isInteger => .ok (.truth (match argument with | .integer _ => true | _ => false))
  | isString => .ok (.truth (match argument with | .string _ => true | _ => false))
  | isTruthValue => .ok (.truth (match argument with | .truth _ => true | _ => false))
  | isFunction => .ok (.truth argument.isFunction)
  | isTuple => .ok (.truth (match argument with | .tuple _ => true | _ => false))
  | isDummy => .ok (.truth (match argument with | .dummy => true | _ => false))
  | order => do
    let components ← argument.components?
    integerResult "Order" (Integer.ofInt? components.length)
  | null => do
    let components ← argument.components?
    .ok (.truth components.isEmpty)
  | itos =>
    match argument with
    | .integer n => .ok (.string (Integer.text n))
    | other => .error (.typeMismatch "integer" other.typeName)

/-- The value of a builtin applied to `argument` after the arguments it has `received`. -/
def apply (builtin : Builtin) (received : List (Value Code)) (argument : Value Code) :
    Except Error (Value Code) :=
  if received.length + 1 < builtin.arity then
    .ok (.partialApp builtin (received ++ [argument]))
  else
    builtin.compute received argument

/-- The values that applying a builtin to `argument` shows. -/
def shown (builtin : Builtin) (argument : Value Code) : List (Value Code) :=
  match builtin with
  | print => [argument]
  | _ => []

end Builtin

end EagerLambda
