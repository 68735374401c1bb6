import EagerLambda.Control.Fragment
import EagerLambda.Machine.Step
import EagerLambda.Tree.Desugar

/-!
# Programs

From a tree to its value: the tree is desugared, laid out as a control table and executed.

## Main definitions

- `Program.compile` — the control table of a tree
- `Program.run` — the report of a run that needs no more than a given number of turns
-/

namespace EagerLambda

namespace Program

/-- The control table of a program tree. -/
def compile (tree : Tree) : Except Error Control.Table := do
  let core ← tree.desugar
  Control.Table.ofTree core.tree

/-- What a run that succeeds comes to. -/
structure Outcome where
  value : Value
  /-- How many control structures the program has. -/
  structures : Nat
  /-- How many steps were taken. -/
  steps : Nat
  /-- How many environments were opened, the root included. -/
  environments : Nat
  deriving DecidableEq, Repr

/-- What a run comes to. -/
structure Report where
  result : Except Error Outcome
  /-- The values shown, in order, also before an error. -/
  shown : List Value

instance : Inhabited Report := ⟨⟨.error .divisionByZero, []⟩⟩

/-- The report of a failure before the first step. -/
def Report.failed (error : Error) : Report := ⟨.error error, []⟩

/-- Executes a control table. There is no report if the run is not over after `fuel` turns. -/
def execute (fuel : Nat) (settings : Machine.Settings) (table : Control.Table) : Option Report :=
  match Machine.load table settings with
  | .error error => some (.failed error)
  | .ok (machine, start) =>
    match machine.advance fuel start with
    | .next _ => none
    | .failed error s => some ⟨.error error, s.shown.reverse⟩
    | .halted value s =>
      some ⟨.ok ⟨value, table.size, s.steps, s.envs.size⟩, s.shown.reverse⟩

/-- Runs a program tree. There is no report if the run is not over after `fuel` turns. -/
def run (fuel : Nat) (settings : Machine.Settings) (tree : Tree) : Option Report :=
  match compile tree with
  | .error error => some (.failed error)
  | .ok table => execute fuel settings table

end Program

end EagerLambda
