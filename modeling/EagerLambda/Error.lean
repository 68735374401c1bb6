import EagerLambda.NameTable
import EagerLambda.Integer

/-!
# Errors

Everything that can go wrong between reading a tree and the value it denotes. An error is a cause;
its wording is made by `Error.message`. Handles inside an error are resolved only then, so an
error does not depend on how names are numbered.

## Main definitions

- `NodeFault`, `ControlFault`, `MachineFault` — causes within one stage
- `Error` — all causes
- `Error.code` — the short name of the kind of an error
- `Error.message` — its wording
-/

namespace EagerLambda

-- ════════════════════════════════════════════════════════════════════════
-- Faults of one stage
-- ════════════════════════════════════════════════════════════════════════

/-- What is wrong with a node of a sugared tree. -/
inductive NodeFault
  | childCount (expected : String) (got : Nat)
  /-- A node labelled `found` stands where a definition is wanted. -/
  | notDefinition (found : String)
  /-- A fault in the words of whoever reports it. -/
  | other (text : String)
  deriving DecidableEq, Repr

/-- The wording of a node's fault. -/
def NodeFault.text : NodeFault → String
  | childCount expected got => s!"expected {expected} children, got {got}"
  | notDefinition found => s!"expected an `=` definition, found `{found}`"
  | other text => text

/-- Why a tree has no control table, or why a table cannot be executed. -/
inductive ControlFault
  | childCount (label : String) (expected got : Nat)
  /-- A construct that abbreviates others is still in the tree. -/
  | notCore (keyword : String)
  | parameterNotName (label : String)
  | binderNotName (label : String)
  | tooManyStructures
  | emptyStructure (index : Nat)
  | missingReference (index : Nat) (missing : ControlId)
  | missingStructure (missing : ControlId)
  | noEntry
  | emptyEntry
  /-- A fault in the words of whoever reports it. -/
  | other (text : String)
  deriving DecidableEq, Repr

/-- The wording of a control fault. -/
def ControlFault.text : ControlFault → String
  | childCount label expected got => s!"`{label}` expects {expected} children, got {got}"
  | notCore keyword => s!"`{keyword}` cannot appear in a standardized tree"
  | parameterNotName label => s!"lambda parameter list contains `{label}`"
  | binderNotName label => s!"lambda binds `{label}` instead of a name"
  | tooManyStructures => "too many control structures"
  | emptyStructure index => s!"control structure {index} is empty"
  | missingReference index missing =>
    s!"control structure {index} refers to missing {missing.text}"
  | missingStructure missing => s!"missing control structure {missing.text}"
  | noEntry => "control table has no entry structure"
  | emptyEntry => s!"entry structure {ControlId.entry.text} is empty"
  | other text => text

/-- A state of the machine from which no rule can go on. -/
inductive MachineFault
  /-- The marker of an environment lies where a value is wanted. -/
  | expectedValue (found : EnvId)
  | underflow
  | missingEnvironment (env : EnvId)
  | environmentsExhausted
  | noCurrentEnvironment
  /-- The scope being closed is not the one that was opened last. -/
  | markerMismatch (closing found : EnvId)
  | missingMarker (closing : EnvId)
  | branchWithoutTargets
  /-- The machine halted with this many operands, not with one. -/
  | leftover (count : Nat)
  /-- A fault in the words of whoever reports it. -/
  | other (text : String)
  deriving DecidableEq, Repr

/-- The wording of a machine fault. -/
def MachineFault.text : MachineFault → String
  | expectedValue found => s!"expected a value, found environment marker {found.text}"
  | underflow => "operand stack underflow"
  | missingEnvironment env => s!"environment {env.text} does not exist"
  | environmentsExhausted => "environment arena exhausted"
  | noCurrentEnvironment => "no current environment"
  | markerMismatch closing found =>
    s!"closing {closing.text} but the operand stack holds {found.text}"
  | missingMarker closing => s!"no marker for {closing.text} beneath the result"
  | branchWithoutTargets => "β without branch targets beneath it"
  | leftover count => s!"{count} operands left when the machine halted"
  | other text => text

-- ════════════════════════════════════════════════════════════════════════
-- Errors
-- ════════════════════════════════════════════════════════════════════════

/-- A reason why a program has no value. -/
inductive Error
  | malformedNode (construct : String) (fault : NodeFault)
  | malformedControl (fault : ControlFault)
  | unboundVariable (name : Name)
  | typeMismatch (expected got : String)
  | divisionByZero
  | integerOverflow (operation : String)
  | indexOutOfRange (index : Integer) (length : Nat)
  | arityMismatch (expected got : Nat)
  /-- An item that no rule applies to. -/
  | unknownItem (item : String)
  | budgetExhausted (budget : Nat)
  | machine (fault : MachineFault)
  deriving DecidableEq, Repr, Inhabited

namespace Error

/-- The short name of the kind of an error. -/
def code : Error → String
  | malformedNode .. => "MalformedNode"
  | malformedControl _ => "MalformedControlInput"
  | unboundVariable _ => "UnboundVariable"
  | typeMismatch .. => "TypeMismatch"
  | divisionByZero => "DivisionByZero"
  | integerOverflow _ => "IntegerOverflow"
  | indexOutOfRange .. => "IndexOutOfRange"
  | arityMismatch .. => "ArityMismatch"
  | unknownItem _ => "UnknownControlItem"
  | budgetExhausted _ => "StepBudgetExceeded"
  | machine _ => "MachineInvariant"

/-- The sentence that reports an error. -/
def message (names : NameTable) : Error → String
  | malformedNode construct fault => s!"malformed `{construct}` node: {fault.text}"
  | malformedControl fault => s!"cannot generate control structure: {fault.text}"
  | unboundVariable name => s!"unbound variable: {names.text name}"
  | typeMismatch expected got => s!"type mismatch: expected {expected}, got {got}"
  | divisionByZero => "division by zero"
  | integerOverflow operation => s!"integer overflow in {operation}"
  | indexOutOfRange index length =>
    s!"tuple index {index.toInt} out of range 1..={length}"
  | arityMismatch expected got =>
    let noun := if expected = 1 then "value" else "values"
    s!"expected a tuple of {expected} {noun}, got {got}"
  | unknownItem item => s!"no rule applies to `{item}`"
  | budgetExhausted budget => s!"step budget of {budget} exhausted"
  | machine fault => s!"machine invariant violated: {fault.text}"

end Error

end EagerLambda
