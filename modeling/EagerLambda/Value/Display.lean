import EagerLambda.NameTable
import EagerLambda.Value

/-!
# The text of values

Values are shown as the language writes them, as far as it can: strings bare, tuples in
parentheses, functions by what they bind. Text is appended to an output that grows, so deeply
nested tuples are written in one pass.

## Main definitions

- `Value.display` — the text that shows a value
-/

namespace EagerLambda

/-- A function is shown by its kind, the names it binds and the number of its body. -/
def Closure.display (names : NameTable) (kind : String) (closure : Closure) : String :=
  let bound := ",".intercalate (closure.params.map names.text)
  s!"[{kind} closure: {bound}: {closure.body.index}]"

namespace Value

mutual

/-- Appends the text of a value to `out`. -/
def write (names : NameTable) (out : String) : Value → String
  | integer value => out ++ value.text
  | truth true => out ++ "true"
  | truth false => out ++ "false"
  | string value => out ++ value
  | tuple [] => out ++ "nil"
  | tuple (first :: rest) => writeRest names (write names (out ++ "(") first) rest ++ ")"
  | dummy => out ++ "dummy"
  | closure c => out ++ c.display names "lambda"
  | eta c => out ++ c.display names "eta"
  | fixpoint => out ++ "Y*"
  | builtin b => out ++ b.name
  | partialApp b _ => out ++ b.name

/-- Appends the texts of the components after the first, each after a comma. -/
def writeRest (names : NameTable) (out : String) : List Value → String
  | [] => out
  | value :: rest => writeRest names (write names (out ++ ", ") value) rest

end

/-- The text that shows a value. -/
def display (names : NameTable) (value : Value) : String := value.write names ""

end Value

end EagerLambda
