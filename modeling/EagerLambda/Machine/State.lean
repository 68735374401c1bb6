import EagerLambda.Control.Table
import EagerLambda.Environment
import EagerLambda.Error

/-!
# States of the machine

The machine works on two stacks. The control stack says what is still to be done: it is divided
into the scopes that are open, and each scope holds the items that are left in it and the
environment that is closed after them. The operand stack holds the values computed so far; the
values of a scope lie above a marker that keeps them apart from those of the scopes around it. The
top of a stack is the head of its list.

## Main definitions

- `Machine` — what stays the same during a run: the control table and the budget
- `Machine.Scope`, `Machine.Operand` — the parts of the two stacks
- `Machine.State` — a state
- `Machine.State.takeTask?` — the top entry of the control stack
- `Machine.Turn` — what one turn of the machine comes to
- `Machine.load` — the state a run starts from
-/

namespace EagerLambda

open Control

/-- A program ready to be executed, and how many steps it may take. -/
structure Machine where
  table : Table
  /-- The most steps that a run may take; without a budget, a run is not bounded. -/
  budget : Option Nat
  deriving DecidableEq, Repr, Inhabited

namespace Machine

/-- An open scope: the items still to be executed in it, the next one first, and the environment
that is closed after them. -/
structure Scope where
  todo : List Item
  env : EnvId
  deriving DecidableEq, Repr, Inhabited

/-- How many entries of the control stack a scope takes: its items and its closing. -/
def Scope.height (scope : Scope) : Nat := scope.todo.length + 1

/-- An entry of the control stack. -/
inductive Task
  | item (item : Item)
  /-- Closes the scope of an environment. -/
  | leave (env : EnvId)
  deriving DecidableEq, Repr, Inhabited

/-- An entry of the operand stack. -/
inductive Operand
  | value (value : Value)
  /-- Lies beneath the values of the scope of an environment. -/
  | marker (env : EnvId)
  deriving DecidableEq, Repr, Inhabited

/-- A state of the machine. -/
structure State where
  /-- The control stack: the open scopes, the innermost first. -/
  scopes : List Scope
  operands : List Operand
  envs : Environments
  /-- The environment in which names are looked up. -/
  current : Option EnvId
  /-- How many steps were taken. -/
  steps : Nat
  /-- The values shown so far, the latest first. -/
  shown : List Value
  deriving DecidableEq, Repr, Inhabited

namespace State

/-- How many entries the control stack has. -/
def controlHeight (s : State) : Nat :=
  s.scopes.foldr (fun scope height => scope.height + height) 0

/-- The top entry of the control stack and the state without it. -/
def takeTask? (s : State) : Option (Task × State) :=
  match s.scopes with
  | [] => none
  | ⟨[], env⟩ :: outer => some (.leave env, { s with scopes := outer })
  | ⟨item :: todo, env⟩ :: outer => some (.item item, { s with scopes := ⟨todo, env⟩ :: outer })

/-- The state with these items to be executed next in the innermost scope. -/
def schedule (s : State) (items : List Item) : State :=
  match s.scopes with
  | [] => s
  | ⟨todo, env⟩ :: outer => { s with scopes := ⟨items ++ todo, env⟩ :: outer }

end State

/-- What one turn of the machine comes to. A failure keeps the state in which it was found:
everything that was taken off the stacks is gone. -/
inductive Turn
  | next (state : State)
  | halted (value : Value) (state : State)
  | failed (error : Error) (state : State)
  deriving DecidableEq, Repr, Inhabited

/-- Steps are counted in 64 bits, and the count stays at its maximum once it gets there. -/
def stepLimit : Nat := UInt64.size - 1

-- ════════════════════════════════════════════════════════════════════════
-- Starting
-- ════════════════════════════════════════════════════════════════════════

/-- How to run a program. -/
structure Settings (Code : Type := ControlId) where
  budget : Option Nat := none
  /-- Whether the root environment holds the primitives. -/
  primitives : Bool := true
  /-- Bindings made in the root environment after the primitives, in order. -/
  bindings : List (Binding Code) := []
  deriving DecidableEq, Repr

instance : Inhabited Settings := ⟨{}⟩

/-- The environments that a run starts with. -/
def Settings.environments {Code : Type} (settings : Settings Code) : Environments Code :=
  (if settings.primitives then Environments.withPrimitives else Environments.empty).bindAll
    settings.bindings

/-- The machine for a table and the state in which it starts: the scope of the root environment
is open, and the items of the entry structure are to be executed in it. -/
def load (table : Table) (settings : Settings) : Except Error (Machine × State) :=
  match table.entry? with
  | none => .error (.malformedControl .noEntry)
  | some entry =>
    if entry.items.isEmpty then .error (.malformedControl .emptyEntry)
    else
      .ok (⟨table, settings.budget⟩,
        { scopes := [⟨entry.executionOrder, .root⟩]
          operands := [.marker .root]
          envs := settings.environments
          current := some .root
          steps := 0
          shown := [] })

end Machine

end EagerLambda
