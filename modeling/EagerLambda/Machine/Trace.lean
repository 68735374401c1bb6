import EagerLambda.Machine.Step

/-!
# Traces

A trace lists the rules that a run applies. A rule is recorded when it has been chosen: the entry
of the control stack that called for it is off the stack, and so is the function of an
application, but no operand is. Steps for which no rule can be chosen are not recorded.

## Main definitions

- `Machine.Rule` — the rules
- `Machine.Event` — the application of a rule
- `Machine.event?` — the event of the next step
- `Machine.advanceTracing` — a bounded number of turns, with their events
-/

namespace EagerLambda

namespace Machine

/-- The rules of the machine. -/
inductive Rule
  | load
  | makeClosure
  /-- Applies a function that binds one name. -/
  | applySingle
  | leave
  | binary
  | unary
  | branch
  | tuple
  | select
  /-- Applies a function that binds the components of a tuple. -/
  | applyTupled
  | makeRecursive
  | unfold
  | call
  deriving DecidableEq, Repr, Inhabited

namespace Rule

/-- The label of a rule in a trace. -/
def text : Rule → String
  | load => "rule 1"
  | makeClosure => "rule 2"
  | applySingle => "rule 4"
  | leave => "rule 5"
  | binary => "rule 6"
  | unary => "rule 7"
  | branch => "rule 8"
  | tuple => "rule 9"
  | select => "rule 10"
  | applyTupled => "rule 11"
  | makeRecursive => "rule 12"
  | unfold => "rule 13"
  | call => "builtin"

/-- The rule that applies a value, if the value can be applied. -/
def ofFunction? : Value → Option Rule
  | .closure closure =>
    match closure.params with
    | [_] => some applySingle
    | _ => some applyTupled
  | .tuple (_ :: _) => some select
  | .fixpoint => some makeRecursive
  | .eta _ => some unfold
  | .builtin _ => some call
  | .partialApp .. => some call
  | _ => none

/-- The rule for an entry of the control stack over these operands, together with the operands
that are there when it has been chosen. -/
def choose? (task : Task) (operands : List Operand) : Option (Rule × List Operand) :=
  match task with
  | .leave _ => some (leave, operands)
  | .item (.load _) => some (load, operands)
  | .item (.lambda ..) => some (makeClosure, operands)
  | .item .gamma =>
    match operands with
    | .value function :: rest => (ofFunction? function).map fun rule => (rule, rest)
    | _ => none
  | .item (.binary _) => some (binary, operands)
  | .item (.unary _) => some (unary, operands)
  | .item .beta => some (branch, operands)
  | .item (.tau _) => some (tuple, operands)
  | .item (.branch ..) => none

end Rule

/-- The application of a rule. -/
structure Event where
  rule : Rule
  /-- Which step it is, counted from one. -/
  step : Nat
  /-- The height of the control stack. -/
  control : Nat
  /-- The height of the operand stack. -/
  operands : Nat
  /-- The current environment. -/
  env : Option EnvId
  deriving DecidableEq, Repr

/-- The event of the next step, if a rule is chosen in it. -/
def event? (machine : Machine) (s : State) : Option Event :=
  match s.takeTask? with
  | none => none
  | some (task, s) =>
    let s := s.charge
    if (machine.overrun? s.steps).isSome then none
    else
      (Rule.choose? task s.operands).map fun (rule, operands) =>
        ⟨rule, s.steps, s.controlHeight, operands.length, s.current⟩

/-- At most `fuel` turns, with their events put before `events`, the latest first. -/
def advanceTracing (machine : Machine) :
    (fuel : Nat) → (events : List Event) → (s : State) → List Event × Turn
  | 0, events, s => (events, .next s)
  | fuel + 1, events, s =>
    let events := (machine.event? s).toList ++ events
    match machine.turn s with
    | .next s => machine.advanceTracing fuel events s
    | stopped => (events, stopped)

end Machine

end EagerLambda
