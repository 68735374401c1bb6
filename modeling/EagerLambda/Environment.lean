import EagerLambda.Error
import EagerLambda.Value

/-!
# Environments

Environments form a tree. Each one lists the bindings made when it was opened and knows the
environment it was opened in; the root holds the primitives. An environment is never given up, so
a function can keep the one it was made in. The parent of an environment is older than the
environment itself.

## Main definitions

- `Frame` — one environment
- `Environments` — all environments of a run
- `Environments.open?` — opens an environment inside another
- `Environments.lookup`, `Environments.resolve` — the value of a name
- `primitives` — the bindings that programs start with
-/

namespace EagerLambda

variable {Code : Type}

/-- A name and its value. -/
abbrev Binding (Code : Type := ControlId) := Name × Value Code

/-- An environment: the one it lies in, and its own bindings, the latest first. -/
structure Frame (Code : Type := ControlId) where
  parent : Option EnvId
  bindings : List (Binding Code)
  deriving DecidableEq, Repr, Inhabited

namespace Frame

/-- A frame with these bindings, of which later ones hide earlier ones. -/
def ofBindings (parent : Option EnvId) (bindings : List (Binding Code)) : Frame Code :=
  ⟨parent, bindings.reverse⟩

/-- The value a frame itself gives to a name. -/
def find? (frame : Frame Code) (name : Name) : Option (Value Code) := frame.bindings.lookup name

/-- The frame with one more binding, which hides earlier ones of the same name. -/
def bind (frame : Frame Code) (name : Name) (value : Value Code) : Frame Code :=
  { frame with bindings := (name, value) :: frame.bindings }

end Frame

/-- The bindings that programs start with, in the order in which they are made. -/
def primitives : List (Binding Code) :=
  [(.printUpper, .builtin .print), (.printLower, .builtin .print), (.nil, .nil),
    (.fixpoint, .fixpoint), (.conc, .builtin .conc), (.stem, .builtin .stem),
    (.stern, .builtin .stern), (.isInteger, .builtin .isInteger),
    (.isString, .builtin .isString), (.isTruthValue, .builtin .isTruthValue),
    (.isFunction, .builtin .isFunction), (.isTuple, .builtin .isTuple),
    (.isDummy, .builtin .isDummy), (.order, .builtin .order), (.null, .builtin .null),
    (.itos, .builtin .itos)]

/-- The environments opened so far, each at the position that is its number. -/
structure Environments (Code : Type := ControlId) where
  frames : Array (Frame Code)
  deriving DecidableEq, Repr, Inhabited

namespace Environments

/-- The root environment alone, without bindings. -/
def empty : Environments Code := ⟨#[Frame.ofBindings none []]⟩

/-- How many environments there are. -/
def size (envs : Environments Code) : Nat := envs.frames.size

/-- Whether there are no environments. -/
def isEmpty (envs : Environments Code) : Bool := envs.frames.isEmpty

/-- Binds a name in the root environment. -/
def bindRoot (envs : Environments Code) (binding : Binding Code) : Environments Code :=
  ⟨envs.frames.modify EnvId.root.index fun frame => frame.bind binding.1 binding.2⟩

/-- Makes bindings in the root environment, one after the other. -/
def bindAll (envs : Environments Code) (bindings : List (Binding Code)) : Environments Code :=
  bindings.foldl bindRoot envs

/-- The root environment alone, with the primitives. -/
def withPrimitives : Environments Code := empty.bindAll primitives

/-- Why no environment can be opened inside `parent`, if there is a reason. -/
def openFault? (envs : Environments Code) (parent : EnvId) : Option MachineFault :=
  if envs.size ≤ parent.index then some (.missingEnvironment parent)
  else if handleLimit ≤ envs.size then some .environmentsExhausted
  else none

/-- The environment that is opened next. -/
def nextId (envs : Environments Code) : EnvId := ⟨envs.size⟩

/-- The environments after opening one with these bindings inside `parent`. -/
def push (envs : Environments Code) (parent : EnvId) (bindings : List (Binding Code)) :
    Environments Code :=
  ⟨envs.frames.push (Frame.ofBindings (some parent) bindings)⟩

/-- Opens an environment with these bindings inside `parent`. Later bindings of a name hide
earlier ones. -/
def open? (envs : Environments Code) (parent : EnvId) (bindings : List (Binding Code)) :
    Except Error (EnvId × Environments Code) :=
  match envs.openFault? parent with
  | some fault => .error (.machine fault)
  | none => .ok (envs.nextId, envs.push parent bindings)

/-- The environment that `env` lies in. -/
def parent? (envs : Environments Code) (env : EnvId) : Option EnvId :=
  envs.frames[env.index]?.bind Frame.parent

/-- The value of a name in the first of at most `depth` environments, starting at `env` and going
outward, that binds it. -/
def search (envs : Environments Code) (name : Name) :
    (depth : Nat) → (env : EnvId) → Option (Value Code)
  | 0, _ => none
  | depth + 1, env =>
    match envs.frames[env.index]? with
    | none => none
    | some frame =>
      match frame.find? name with
      | some value => some value
      | none =>
        match frame.parent with
        | none => none
        | some parent => envs.search name depth parent

/-- The value of a name in the innermost environment, from `env` outward, that binds it. Parents
are older, so a path outward from `env` visits no more than `env.index + 1` environments. -/
def lookup (envs : Environments Code) (env : EnvId) (name : Name) : Option (Value Code) :=
  envs.search name (env.index + 1) env

/-- The value of a name, which has to be bound. -/
def resolve (envs : Environments Code) (env : EnvId) (name : Name) :
    Except Error (Value Code) :=
  match envs.lookup env name with
  | some value => .ok value
  | none => .error (.unboundVariable name)

end Environments

end EagerLambda
