import EagerLambda.Builtin.Apply
import EagerLambda.Machine.State
import EagerLambda.Operator.Apply

/-!
# Steps of the machine

A step takes the top entry off the control stack and applies the one rule for it. For an
application, the operand on top of the operand stack chooses the rule. The machine halts when the
control stack is empty, with the value that is then alone on the operand stack.

Operands were pushed in reverse: the one on top is the one written first.

## Main definitions

- `Machine.perform` — the rule for an entry of the control stack
- `Machine.turn` — one step, or the halt
- `Machine.advance` — a bounded number of turns
-/

namespace EagerLambda

open Control

namespace Machine

namespace State

-- ════════════════════════════════════════════════════════════════════════
-- Operands
-- ════════════════════════════════════════════════════════════════════════

/-- The state with a value on top of the operand stack. -/
def push (s : State) (value : Value) : State :=
  { s with operands := .value value :: s.operands }

/-- Goes on with the value on top of the operand stack, taken off it. A marker in its place is
taken off as well and is a failure. -/
@[inline]
def withValue (s : State) (next : Value → State → Turn) : Turn :=
  match s.operands with
  | [] => .failed (.machine .underflow) s
  | .marker env :: rest => .failed (.machine (.expectedValue env)) { s with operands := rest }
  | .value v :: rest => next v { s with operands := rest }

/-- Goes on with the values on top of the operand stack, the topmost first. -/
def withValues (s : State) (count : Nat) (next : List Value → State → Turn) : Turn :=
  match count with
  | 0 => next [] s
  | count + 1 =>
    s.withValue fun first s => s.withValues count fun rest s => next (first :: rest) s

/-- Pushes the result of a computation, or fails with its error. -/
def pushResult (s : State) (result : Except Error Value) : Turn :=
  match result with
  | .ok value => .next (s.push value)
  | .error error => .failed error s

-- ════════════════════════════════════════════════════════════════════════
-- Scopes
-- ════════════════════════════════════════════════════════════════════════

/-- Goes on with the current environment, if there is one. -/
@[inline]
def withCurrent (s : State) (next : EnvId → Turn) : Turn :=
  match s.current with
  | none => .failed (.machine .noCurrentEnvironment) s
  | some env => next env

/-- Executes a structure next in the innermost scope. -/
def splice (table : Table) (id : ControlId) (s : State) : Turn :=
  match table.get? id with
  | none => .failed (.malformedControl (.missingStructure id)) s
  | some entered => .next (s.schedule entered.executionOrder)

/-- Opens a scope for the body of a function: an environment with these bindings inside the
environment that the function was made in. -/
def enter (table : Table) (closure : Closure) (bindings : List Binding) (s : State) : Turn :=
  match s.envs.openFault? closure.env with
  | some fault => .failed (.machine fault) s
  | none =>
    let env := s.envs.nextId
    splice table closure.body
      { s with
        envs := s.envs.push closure.env bindings
        current := some env
        scopes := ⟨[], env⟩ :: s.scopes
        operands := .marker env :: s.operands }

/-- Ends a scope that was taken off the control stack. Its marker is dropped from beneath the
result, and names are looked up in the innermost scope that is still open. -/
def leave (env : EnvId) (s : State) : Turn :=
  s.withValue fun result s =>
    match s.operands with
    | .marker found :: rest =>
      if found = env then
        .next { s with
          operands := .value result :: rest
          current := s.scopes.head?.map Scope.env }
      else
        .failed (.machine (.markerMismatch env found)) { s with operands := rest }
    | other => .failed (.machine (.missingMarker env)) { s with operands := other.tail }

-- ════════════════════════════════════════════════════════════════════════
-- Constants, names and functions
-- ════════════════════════════════════════════════════════════════════════

/-- Pushes a constant, or the value of a name in the current environment. -/
def load (atom : Atom) (s : State) : Turn :=
  match atom with
  | .identifier name => s.withCurrent fun env => s.pushResult (s.envs.resolve env name)
  | .integer n => .next (s.push (.integer n))
  | .string text => .next (s.push (.string text))
  | .truth b => .next (s.push (.truth b))
  | .nil => .next (s.push .nil)
  | .dummy => .next (s.push .dummy)

/-- Pushes a function made in the current environment. -/
def makeClosure (body : ControlId) (params : List Name) (s : State) : Turn :=
  s.withCurrent fun env => .next (s.push (.closure ⟨body, params, env⟩))

-- ════════════════════════════════════════════════════════════════════════
-- Application
-- ════════════════════════════════════════════════════════════════════════

/-- Applies a function that binds one name to the operand beneath it. -/
def applySingle (table : Table) (closure : Closure) (param : Name) (s : State) : Turn :=
  s.withValue fun argument s => s.enter table closure [(param, argument)]

/-- Applies a function that binds several names, or none, to a tuple of as many components. -/
def applyTupled (table : Table) (closure : Closure) (s : State) : Turn :=
  s.withValue fun argument s =>
    match argument with
    | .tuple components =>
      if components.length = closure.params.length then
        s.enter table closure (closure.params.zip components)
      else
        .failed (.arityMismatch closure.params.length components.length) s
    | other =>
      .failed (.typeMismatch s!"a tuple of {closure.params.length} values" other.typeName) s

/-- The component of a tuple at a position counted from one. -/
def component? {Code : Type} (components : List (Value Code)) (index : Integer) :
    Option (Value Code) :=
  if 1 ≤ index.toInt then components[(index.toInt - 1).toNat]? else none

/-- Takes a component of a tuple. -/
def select (components : List Value) (s : State) : Turn :=
  s.withValue fun index s =>
    match index with
    | .integer i =>
      match component? components i with
      | some component => .next (s.push component)
      | none => .failed (.indexOutOfRange i components.length) s
    | other => .failed (.typeMismatch "an integer index" other.typeName) s

/-- Applies the fixed-point combinator: the function beneath it becomes recursive. -/
def makeRecursive (s : State) : Turn :=
  s.withValue fun function s =>
    match function with
    | .closure closure => .next (s.push (.eta closure))
    | other => .failed (.typeMismatch "a function after Y" other.typeName) s

/-- Unfolds a recursive function: it is applied to itself, and the result to the operand
beneath. -/
def unfold (closure : Closure) (s : State) : Turn :=
  .next (((s.push (.eta closure)).push (.closure closure)).schedule [.gamma, .gamma])

/-- Applies a builtin, after the arguments it has received, to the operand beneath it. -/
def call (builtin : Builtin) (received : List Value) (s : State) : Turn :=
  s.withValue fun argument s =>
    { s with shown := builtin.shown argument ++ s.shown }.pushResult
      (builtin.apply received argument)

/-- Applies the operand on top to the one beneath it. -/
def apply (table : Table) (s : State) : Turn :=
  s.withValue fun function s =>
    match function with
    | .closure closure =>
      match closure.params with
      | [param] => s.applySingle table closure param
      | _ => s.applyTupled table closure
    | .tuple (first :: rest) => s.select (first :: rest)
    | .fixpoint => s.makeRecursive
    | .eta closure => s.unfold closure
    | .builtin builtin => s.call builtin []
    | .partialApp builtin received => s.call builtin received
    | other => .failed (.typeMismatch "a function or tuple" other.typeName) s

-- ════════════════════════════════════════════════════════════════════════
-- Operators, tuples and branches
-- ════════════════════════════════════════════════════════════════════════

/-- Applies a binary operator. The left operand is on top. -/
def binary (op : BinaryOp) (s : State) : Turn :=
  s.withValue fun left s => s.withValue fun right s => s.pushResult (op.apply left right)

/-- Applies a unary operator. The printing operator shows its operand like the builtin. -/
def unary (op : UnaryOp) (s : State) : Turn :=
  match op with
  | .print => s.call .print []
  | op => s.withValue fun operand s => s.pushResult (op.apply operand)

/-- Makes a tuple of the topmost operands. The topmost is the first component. -/
def tuple (count : Nat) (s : State) : Turn :=
  s.withValues count fun components s => .next (s.push (.tuple components))

/-- Executes next the structure that a truth value chooses from the branch on top of the control
stack. -/
def branch (table : Table) (s : State) : Turn :=
  s.withValue fun condition s =>
    match condition with
    | .truth b =>
      match s.takeTask? with
      | some (.item (.branch thenId elseId), s) => s.splice table (if b then thenId else elseId)
      | some (_, s) => .failed (.machine .branchWithoutTargets) s
      | none => .failed (.machine .branchWithoutTargets) s
    | other => .failed (.typeMismatch "truthvalue condition" other.typeName) s

end State

-- ════════════════════════════════════════════════════════════════════════
-- Turns
-- ════════════════════════════════════════════════════════════════════════

/-- Applies the rule for an entry that was taken off the control stack. -/
def perform (table : Table) (task : Task) (s : State) : Turn :=
  match task with
  | .leave env => s.leave env
  | .item (.load atom) => s.load atom
  | .item (.lambda body params) => s.makeClosure body params
  | .item .gamma => s.apply table
  | .item (.binary op) => s.binary op
  | .item (.unary op) => s.unary op
  | .item .beta => s.branch table
  | .item (.tau count) => s.tuple count
  | .item (.branch thenId elseId) => .failed (.unknownItem (Item.branchText thenId elseId)) s

/-- Halts with the only operand. -/
def finish (s : State) : Turn :=
  match s.operands with
  | [_] => s.withValue .halted
  | operands => .failed (.machine (.leftover operands.length)) s

/-- The state with one more step counted. -/
def State.charge (s : State) : State := { s with steps := min (s.steps + 1) stepLimit }

/-- The budget, if this many steps are more than it allows. -/
def overrun? (machine : Machine) (steps : Nat) : Option Nat :=
  machine.budget.filter fun budget => budget < steps

/-- One turn: a step, or the halt if nothing is left to be done. A step is counted before the
budget is checked. -/
def turn (machine : Machine) (s : State) : Turn :=
  match s.takeTask? with
  | none => finish s
  | some (task, s) =>
    let s := s.charge
    match machine.overrun? s.steps with
    | some budget => .failed (.budgetExhausted budget) s
    | none => perform machine.table task s

/-- At most `fuel` turns. The answer is `next` if the machine could go on from there. -/
def advance (machine : Machine) : (fuel : Nat) → (s : State) → Turn
  | 0, s => .next s
  | fuel + 1, s =>
    match machine.turn s with
    | .next s => machine.advance fuel s
    | stopped => stopped

end Machine

end EagerLambda
