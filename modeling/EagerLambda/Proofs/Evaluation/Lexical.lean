import EagerLambda.Proofs.Evaluation.Evaluate

/-!
# Evaluation with lexical scopes

A reference for what programs with recursive definitions mean. A function carries the bindings that
were in scope where it was made. There are no environments that are opened, numbered or used up,
and no fixed points are computed: a recursive definition binds its name to one value, a recursive
function, both in the equation and wherever else the definition is in scope. A recursive function of
some parameters is applied like the function of these parameters that is closed over the scope of
the definition, together with the name of the recursive function.

A program refers to the fixed-point combinator by an identifier like any other, and a recursive
definition is one only where this identifier has not been bound to something else. Where it has, the
definition means what this is applied to.

## Main definitions

- `Lexical` — what a function value computes, with the bindings in scope
- `Lexical.applyWith` — the application of values, given what happens inside functions
- `Tree.evaluateIn` — the value of a tree in a scope, given what happens inside functions
- `Tree.evaluateLexically` — what a program comes to within a clock
-/

namespace EagerLambda

open EagerLambda.Computation

/-- What a function of a program computes once its first parameters are bound: a function of the
parameters that come later, if there are any, and the value of a tree after these. -/
structure Lexical where
  later : List (List Name)
  tree : Tree
  /-- The bindings that are in scope before the first parameters are bound, the innermost first. -/
  context : List (Name × Value Lexical)

instance : Inhabited Lexical := ⟨⟨[], default, []⟩⟩

/-- The bindings in scope at a place of a program, the innermost first. -/
abbrev Context := List (Binding Lexical)

namespace Lexical

/-- What happens inside functions: how their bodies are evaluated, and how values are applied. -/
structure Inner where
  enter : Lexical → Computation Lexical (Value Lexical)
  apply : Value Lexical → Value Lexical → Computation Lexical (Value Lexical)

/-- A function with these parameters. It carries its scope in its body, so it needs no environment
but the root. -/
def close (params : List Name) (body : Lexical) : Closure Lexical := ⟨body, params, .root⟩

/-- The value of a name in a scope. -/
def lookup (context : Context) (name : Name) : Computation Lexical (Value Lexical) :=
  match context.lookup name with
  | some value => pure value
  | none => fail (.unboundVariable name)

/-- The scope in which parameters are bound to an argument. Later ones hide earlier ones. -/
def extend (context : Context) (params : List Name) (argument : Value Lexical) :
    Computation Lexical Context := do
  let bindings ← ofResult (parameterBindings params argument)
  pure (bindings.reverse ++ context)

/-- Applies a value to another one. In the scope of a recursive function its name is bound to the
recursive function itself. -/
def applyWith (inner : Inner) (function argument : Value Lexical) :
    Computation Lexical (Value Lexical) :=
  match function with
  | .closure c => do
    let context ← extend c.body.context c.params argument
    inner.enter ⟨c.body.later, c.body.tree, context⟩
  | .eta c => do
    let context ← extend c.body.context c.params (.eta c)
    match c.body.later with
    | params :: later =>
      inner.apply (.closure (close params ⟨later, c.body.tree, context⟩)) argument
    | [] =>
      let unfolded ← inner.enter ⟨[], c.body.tree, context⟩
      inner.apply unfolded argument
  | .tuple (first :: rest) =>
    match argument with
    | .integer index =>
      match Machine.State.component? (first :: rest) index with
      | some component => pure component
      | none => fail (.indexOutOfRange index (first :: rest).length)
    | other => fail (.typeMismatch "an integer index" other.typeName)
  | .fixpoint =>
    match argument with
    | .closure c => pure (.eta c)
    | other => fail (.typeMismatch "a function after Y" other.typeName)
  | .builtin b => call b [] argument
  | .partialApp b received => call b received argument
  | other => fail (.typeMismatch "a function or tuple" other.typeName)

/-- The value of an atom in a scope. -/
def atom (context : Context) : Atom → Computation Lexical (Value Lexical)
  | .identifier name => lookup context name
  | .integer value => pure (.integer value)
  | .string value => pure (.string value)
  | .truth value => pure (.truth value)
  | .nil => pure .nil
  | .dummy => pure .dummy

/-- Applies a unary operator. The printing operator shows its operand like the builtin. -/
def unary (op : UnaryOp) (operand : Value Lexical) : Computation Lexical (Value Lexical) :=
  match op with
  | .print => call .print [] operand
  | op => ofResult (op.apply operand)

/-- The function whose parameters and body are the trees of a list. -/
def makeFunction (context : Context) (trees : List Tree) : Computation Lexical (Value Lexical) :=
  match Tree.functionParts trees with
  | .ok (params :: later, body) => pure (.closure (close params ⟨later, body, context⟩))
  | .ok ([], _) => fail (malformed (.construct .lambda))
  | .error error => fail error

/-- Evaluates a tree in the scope of a definition with this value. -/
def under (inner : Inner) (context : Context) (equation : Tree) (value : Value Lexical)
    (tree : Tree) : Computation Lexical (Value Lexical) := do
  let names ← ofResult equation.binder.boundNames
  let scope ← extend context names value
  inner.enter ⟨[], tree, scope⟩

/-- The value that an equation gives to the names it binds, which are bound to it in the equation
too. -/
def recursive (inner : Inner) (context : Context) (equation : Tree) :
    Computation Lexical (Value Lexical) := do
  let names ← ofResult equation.binder.boundNames
  let parts ← ofResult equation.equationParts
  let self := close names ⟨parts.1, parts.2, context⟩
  let combinator ← lookup context .fixpoint
  match combinator with
  | .fixpoint => pure (.eta self)
  | other => applyWith inner other (.closure self)

end Lexical

namespace Tree

open Lexical (Inner)

mutual

/-- The value of a tree in a scope. -/
def evaluateIn (inner : Inner) (context : Context) : Tree → Computation Lexical (Value Lexical)
  | node (.atom a) [] => Lexical.atom context a
  | node (.binary op) [left, right] => do
    let b ← evaluateIn inner context right
    let a ← evaluateIn inner context left
    ofResult (op.apply a b)
  | node (.unary op) [operand] => do
    let a ← evaluateIn inner context operand
    Lexical.unary op a
  | node (.construct .gamma) [function, argument] => do
    let a ← evaluateIn inner context argument
    let f ← evaluateIn inner context function
    Lexical.applyWith inner f a
  | node (.construct .tau) components => do
    let values ← evaluateAllIn inner context components
    pure (.tuple values)
  | node (.construct .conditional) [condition, thenTree, elseTree] => do
    let c ← evaluateIn inner context condition
    match c with
    | .truth true => evaluateIn inner context thenTree
    | .truth false => evaluateIn inner context elseTree
    | other => fail (.typeMismatch "truthvalue condition" other.typeName)
  | node (.construct .lambda) children => Lexical.makeFunction context children
  | node (.construct .letIn) [equation, body] => do
    let value ← evaluateIn inner context equation
    Lexical.under inner context equation value body
  | node (.construct .whereIn) [body, equation] => do
    let value ← evaluateIn inner context equation
    Lexical.under inner context equation value body
  | node (.construct .between) [left, function, right] => do
    let b ← evaluateIn inner context right
    let a ← evaluateIn inner context left
    let f ← evaluateIn inner context function
    let g ← Lexical.applyWith inner f a
    Lexical.applyWith inner g b
  | node (.construct .definition) [_, value] => evaluateIn inner context value
  | node (.construct .functionForm) (_ :: rest) => Lexical.makeFunction context rest
  | node (.construct .simultaneous) equations => do
    let values ← evaluateAllIn inner context equations
    pure (.tuple values)
  | node (.construct .within) [outer, equation] => do
    let value ← evaluateIn inner context outer
    Lexical.under inner context outer value equation
  | node (.construct .recursive) [equation] => Lexical.recursive inner context equation
  | node label _ => fail (malformed label)

/-- The values of the trees of a list in a scope. The last one is evaluated first. -/
def evaluateAllIn (inner : Inner) (context : Context) :
    List Tree → Computation Lexical (List (Value Lexical))
  | [] => pure []
  | tree :: rest => do
    let values ← evaluateAllIn inner context rest
    let value ← evaluateIn inner context tree
    pure (value :: values)

end

end Tree

namespace Lexical

/-- Evaluates the body of a function in the scope of its parameters. -/
def enterWith (inner : Inner) (body : Lexical) : Computation Lexical (Value Lexical) :=
  match body.later with
  | [] => body.tree.evaluateIn inner body.context
  | params :: later => pure (.closure (close params { body with later := later }))

/-- What happens inside functions within a clock. -/
def innerAt : (clock : Nat) → Inner
  | 0 => ⟨fun _ => stopped, fun _ _ => stopped⟩
  | clock + 1 => ⟨enterWith (innerAt clock), applyWith (innerAt clock)⟩

/-- The scope of a whole program. The root binds no functions of the program, so it does not matter
what becomes of bodies. -/
def root (settings : Machine.Settings) : Context :=
  (settings.mapCode fun _ => (default : Lexical)).root

end Lexical

/-- Where the identifier of the fixed-point combinator stands for it, a recursive definition of a
function binds its name to one value. The function is applied like the function of its parameters in
the scope of the definition, and both there and in the rest of the program its name is bound to this
value. -/
theorem Lexical.evaluateIn_recursive (inner : Inner) {context : Context} {name : Name}
    {children : List Tree} {params : List Name} {later : List (List Name)} {body : Tree}
    (hparts : Tree.functionParts children = .ok (params :: later, body))
    (hcombinator : context.lookup .fixpoint = some .fixpoint) :
    let definition := Tree.of .recursive [.of .functionForm (.identifier name :: children)]
    ∃ self : Value Lexical, definition.evaluateIn inner context = pure self ∧
      (∀ argument, applyWith inner self argument =
        inner.apply (.closure (close params ⟨later, body, (name, self) :: context⟩)) argument) ∧
      ∀ tree, under inner context definition self tree =
        inner.enter ⟨[], tree, (name, self) :: context⟩ := by
  refine ⟨.eta (close [name] ⟨params :: later, body, context⟩), ?_, fun _ => rfl, fun _ => rfl⟩
  rw [Tree.of, Tree.evaluateIn, recursive, Tree.of, Tree.equationParts, hparts, lookup,
    hcombinator]
  rfl

/-- What a program tree comes to within a clock. Only the output is kept in the store, since
functions carry the bindings that they were made under. -/
def Tree.evaluateLexically (tree : Tree) (clock : Nat) (settings : Machine.Settings) :
    Answer Lexical (Value Lexical) :=
  (tree.evaluateIn (Lexical.innerAt clock) (Lexical.root settings)).run ⟨⟨#[]⟩, []⟩

end EagerLambda
