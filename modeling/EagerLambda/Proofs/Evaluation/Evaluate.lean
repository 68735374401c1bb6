import EagerLambda.Control.Fragment
import EagerLambda.Machine.Step
import EagerLambda.Proofs.Environment.Relation
import EagerLambda.Proofs.Evaluation.Computation
import EagerLambda.Proofs.Tree.Site

/-!
# Evaluation of program trees

A program tree is evaluated by recursion, without a control table and without stacks. Every
construct has a meaning of its own, also those that abbreviate others. The value of a definition is
the value it gives to what it binds.

Operands are evaluated from the last to the first: the argument of an application before the
function, the right operand before the left, the last component of a tuple before the others. Of
the arms of a conditional only one is evaluated.

A function value names the subtree that it computes, by the subtree itself and by its place in the
program. Evaluation need not end, so it is bounded by a clock: at most as many environments are
opened inside one another as the clock allows.

## Main definitions

- `Body` — what a function value computes
- `Tree.evaluateWith` — the value of a tree, given what happens inside functions
- `applyWith` — the application of values, given what happens inside functions
- `Tree.evaluate` — the value of a tree within a clock
-/

namespace EagerLambda

open EagerLambda.Computation

/-- What a function of a program computes once its first parameters are bound: a function of the
parameters that come later, if there are any, and the value of a subtree after these. -/
structure Body where
  site : Site
  later : List (List Name)
  tree : Tree
  deriving DecidableEq, Repr, Inhabited

namespace Tree

/-- The trees that bind the parameters of a curried function, as lists of names, and its body,
which comes last. -/
def functionParts : List Tree → Except Error (List (List Name) × Tree)
  | [] => controlError (.childCount Construct.lambda.keyword 2 0)
  | [body] => .ok ([], body)
  | binder :: rest => do
    let params ← binder.boundNames
    let (later, body) ← functionParts rest
    .ok (params :: later, body)

/-- The trees that bind the parameters of the function that an equation defines, as lists of names,
and its body. An equation without a list of parameters defines the value that it has itself. -/
def equationParts : Tree → Except Error (List (List Name) × Tree)
  | node (.construct .functionForm) (_ :: rest) => functionParts rest
  | tree => .ok ([], tree)

mutual

/-- What a definition binds. -/
def binder : Tree → Tree
  | node (.construct .definition) (binder :: _) => binder
  | node (.construct .functionForm) (name :: _) => name
  | node (.construct .simultaneous) definitions => of .comma (binders definitions)
  | node (.construct .within) [_, inner] => inner.binder
  | node (.construct .recursive) [equation] => equation.binder
  | tree => tree

/-- What the definitions of a list bind. -/
def binders : List Tree → List Tree
  | [] => []
  | tree :: rest => tree.binder :: binders rest

end

end Tree

/-- What happens inside functions: how their bodies are evaluated, and how what they answer is
applied. -/
structure Deeper where
  enter : EnvId → Body → Computation Body (Value Body)
  apply : Value Body → Value Body → Computation Body (Value Body)

/-- The error for a tree that no program contains. -/
def malformed (label : Label) : Error := .malformedControl (.notCore label.text)

/-- Applies a value to another one. A function that gets itself first is applied to itself, and
the result to the argument. -/
def applyWith (deeper : Deeper) (function argument : Value Body) :
    Computation Body (Value Body) :=
  match function with
  | .closure c => do
    let env ← openScope c.params argument c.env
    deeper.enter env c.body
  | .eta c => do
    let env ← openScope c.params (.eta c) c.env
    let unfolded ← deeper.enter env c.body
    deeper.apply unfolded argument
  | .tuple (first :: rest) =>
    match argument with
    | .integer index =>
      match Machine.State.component? (first :: rest) index with
      | some component => pure component
      | none => fail (.indexOutOfRange index (first :: rest).length)
    | other => fail (.typeMismatch "an integer index" other.typeName)
  | .fixpoint =>
    match argument with
    | .closure c => pure (.eta c)
    | other => fail (.typeMismatch "a function after Y" other.typeName)
  | .builtin b => call b [] argument
  | .partialApp b received => call b received argument
  | other => fail (.typeMismatch "a function or tuple" other.typeName)

/-- The function whose parameters and body are the trees of a list, the last of which has this
index among the children of the node at `site`. -/
def makeFunction (env : EnvId) (site : Site) (index : Nat) (trees : List Tree) :
    Computation Body (Value Body) :=
  match Tree.functionParts trees with
  | .ok (params :: later, body) => pure (.closure ⟨⟨index :: site, later, body⟩, params, env⟩)
  | .ok ([], _) => fail (malformed (.construct .lambda))
  | .error error => fail error

/-- The value of an atom. -/
def Atom.evaluate (env : EnvId) : Atom → Computation Body (Value Body)
  | identifier name => resolve env name
  | integer value => pure (.integer value)
  | string value => pure (.string value)
  | truth value => pure (.truth value)
  | nil => pure .nil
  | dummy => pure .dummy

/-- Applies a unary operator. The printing operator shows its operand like the builtin. -/
def UnaryOp.evaluate (op : UnaryOp) (operand : Value Body) : Computation Body (Value Body) :=
  match op with
  | print => call .print [] operand
  | op => ofResult (op.apply operand)

/-- Goes on with the arm that the value of a condition chooses. -/
def choose (condition : Value Body) (arms : Bool → Computation Body (Value Body)) :
    Computation Body (Value Body) :=
  match condition with
  | .truth b => arms b
  | other => fail (.typeMismatch "truthvalue condition" other.typeName)

namespace Tree

mutual

/-- The value of the tree at `site` in the environment `env`. -/
def evaluateWith (deeper : Deeper) (env : EnvId) (site : Site) :
    Tree → Computation Body (Value Body)
  | node (.atom a) [] => a.evaluate env
  | node (.binary op) [left, right] => do
    let b ← evaluateWith deeper env (1 :: site) right
    let a ← evaluateWith deeper env (0 :: site) left
    ofResult (op.apply a b)
  | node (.unary op) [operand] => do
    let a ← evaluateWith deeper env (0 :: site) operand
    op.evaluate a
  | node (.construct .gamma) [function, argument] => do
    let a ← evaluateWith deeper env (1 :: site) argument
    let f ← evaluateWith deeper env (0 :: site) function
    applyWith deeper f a
  | node (.construct .tau) components => do
    let values ← evaluateAll deeper env site 0 components
    pure (.tuple values)
  | node (.construct .conditional) [condition, thenTree, elseTree] => do
    let c ← evaluateWith deeper env (0 :: site) condition
    choose c fun b =>
      if b then evaluateWith deeper env (1 :: site) thenTree
      else evaluateWith deeper env (2 :: site) elseTree
  | node (.construct .lambda) children => makeFunction env site (children.length - 1) children
  | node (.construct .letIn) [equation, body] => do
    let value ← evaluateWith deeper env (0 :: site) equation
    let names ← ofResult equation.binder.boundNames
    let inner ← openScope names value env
    deeper.enter inner ⟨1 :: site, [], body⟩
  | node (.construct .whereIn) [body, equation] => do
    let value ← evaluateWith deeper env (1 :: site) equation
    let names ← ofResult equation.binder.boundNames
    let inner ← openScope names value env
    deeper.enter inner ⟨0 :: site, [], body⟩
  | node (.construct .between) [left, function, right] => do
    let b ← evaluateWith deeper env (2 :: site) right
    let a ← evaluateWith deeper env (0 :: site) left
    let f ← evaluateWith deeper env (1 :: site) function
    let g ← applyWith deeper f a
    applyWith deeper g b
  | node (.construct .definition) [_, value] => evaluateWith deeper env (1 :: site) value
  | node (.construct .functionForm) (_ :: rest) => makeFunction env site rest.length rest
  | node (.construct .simultaneous) equations => do
    let values ← evaluateAll deeper env site 0 equations
    pure (.tuple values)
  | node (.construct .within) [outer, inner] => do
    let value ← evaluateWith deeper env (0 :: site) outer
    let names ← ofResult outer.binder.boundNames
    let scope ← openScope names value env
    deeper.enter scope ⟨1 :: site, [], inner⟩
  | node (.construct .recursive) [equation] => do
    let names ← ofResult equation.binder.boundNames
    pure (.eta ⟨⟨0 :: site, [], equation⟩, names, env⟩)
  | node label _ => fail (malformed label)

/-- The values of the children of the node at `site`, from the one with this index on. -/
def evaluateAll (deeper : Deeper) (env : EnvId) (site : Site) (index : Nat) :
    List Tree → Computation Body (List (Value Body))
  | [] => pure []
  | tree :: rest => do
    let values ← evaluateAll deeper env site (index + 1) rest
    let value ← evaluateWith deeper env (index :: site) tree
    pure (value :: values)

end

theorem functionParts_pair {binder : Tree} {params : List Name}
    (h : binder.boundNames = .ok params) (body : Tree) :
    functionParts [binder, body] = .ok ([params], body) := by
  simp only [functionParts, h]
  rfl

/-- A function in the core syntax is closed over the environment. -/
theorem evaluateWith_lambda (deeper : Deeper) (env : EnvId) (site : Site) {binder : Tree}
    {params : List Name} (h : binder.boundNames = .ok params) (body : Tree) :
    (lambda binder body).evaluateWith deeper env site =
      pure (.closure ⟨⟨1 :: site, [], body⟩, params, env⟩) := by
  rw [lambda, of, evaluateWith, makeFunction, functionParts_pair h]
  rfl

end Tree

/-- Evaluates the body of a function in the environment of its parameters. -/
def enterWith (deeper : Deeper) (env : EnvId) (body : Body) : Computation Body (Value Body) :=
  match body.later with
  | [] => body.tree.evaluateWith deeper env body.site
  | params :: later => pure (.closure ⟨{ body with later := later }, params, env⟩)

/-- What happens inside functions within a clock. -/
def deeperAt : (clock : Nat) → Deeper
  | 0 => ⟨fun _ _ => stopped, fun _ _ => stopped⟩
  | clock + 1 => ⟨enterWith (deeperAt clock), applyWith (deeperAt clock)⟩

/-- The value of a whole tree in the environment `env`, within a clock. -/
def Tree.evaluate (tree : Tree) (clock : Nat) (env : EnvId) : Computation Body (Value Body) :=
  tree.evaluateWith (deeperAt clock) env []

/-- What a run of a program tree starts from. The root binds no functions of the program, so it
does not matter what becomes of bodies. -/
def Store.initial (settings : Machine.Settings) : Store Body :=
  ⟨(settings.mapCode fun _ => default).environments, []⟩

/-- What a program tree comes to within a clock. -/
def Tree.evaluateProgram (tree : Tree) (clock : Nat) (settings : Machine.Settings) :
    Answer Body (Value Body) :=
  (tree.evaluate clock .root).run (Store.initial settings)

end EagerLambda
