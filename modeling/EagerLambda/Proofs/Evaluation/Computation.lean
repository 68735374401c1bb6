import EagerLambda.Proofs.Environment.Relation

/-!
# Computations

An evaluator works on the environments opened so far and on the values shown so far. What it comes
to is an answer: a value, an error, or no answer yet when its clock has run out.

## Main definitions

- `Store` — the environments and the output of a run
- `Answer` — what a computation comes to
- `Computation` — computations, as a monad
- `Computation.openScope` — binds the parameters of a function to its argument

## Main statements

- `Computation.parameterBindings_agree` — parameters are bound to related arguments alike
-/

namespace EagerLambda

variable {Code α β : Type}

/-- The environments that have been opened and the values that have been shown, the latest
first. -/
structure Store (Code : Type := ControlId) where
  envs : Environments Code
  shown : List (Value Code)

/-- What a computation comes to, with the store it leaves. -/
inductive Answer (Code α : Type)
  | value (result : α) (store : Store Code)
  | failed (error : Error) (store : Store Code)
  /-- The clock ran out before there was an answer. -/
  | pending

/-- Goes on with the value of an answer, if it has one. -/
def Answer.andThen (answer : Answer Code α) (next : α → Store Code → Answer Code β) :
    Answer Code β :=
  match answer with
  | value result store => next result store
  | failed error store => failed error store
  | pending => pending

theorem Answer.andThen_assoc {γ : Type} (answer : Answer Code α)
    (next : α → Store Code → Answer Code β) (after : β → Store Code → Answer Code γ) :
    (answer.andThen next).andThen after =
      answer.andThen fun result store => (next result store).andThen after := by
  cases answer <;> rfl

/-- A computation turns a store into an answer. -/
structure Computation (Code α : Type) where
  run : Store Code → Answer Code α

namespace Computation

instance : Monad (Computation Code) where
  pure result := ⟨.value result⟩
  bind first next := ⟨fun store => (first.run store).andThen fun result => (next result).run⟩

@[simp]
theorem run_bind (first : Computation Code α) (next : α → Computation Code β)
    (store : Store Code) :
    (first >>= next).run store = (first.run store).andThen fun result => (next result).run := rfl

theorem bind_assoc {γ : Type} (first : Computation Code α) (next : α → Computation Code β)
    (after : β → Computation Code γ) :
    (first >>= next) >>= after = first >>= fun result => next result >>= after :=
  congrArg mk (funext fun store => Answer.andThen_assoc (first.run store) _ _)

/-- The computation whose clock has run out. -/
def stopped : Computation Code α := ⟨fun _ => .pending⟩

/-- Fails. -/
def fail (error : Error) : Computation Code α := ⟨.failed error⟩

/-- Answers a result that was computed without the store. -/
def ofResult : Except Error α → Computation Code α
  | .ok result => pure result
  | .error error => fail error

/-- Looks up a name. -/
def resolve (env : EnvId) (name : Name) : Computation Code (Value Code) :=
  ⟨fun store => (ofResult (store.envs.resolve env name)).run store⟩

/-- Shows values, the first of them last. -/
def display (values : List (Value Code)) : Computation Code Unit :=
  ⟨fun store => .value () { store with shown := values ++ store.shown }⟩

/-- Opens an environment with these bindings inside `parent`. -/
def openWith (parent : EnvId) (bindings : List (Binding Code)) : Computation Code EnvId :=
  ⟨fun store =>
    match store.envs.open? parent bindings with
    | .ok (env, envs) => .value env { store with envs := envs }
    | .error error => .failed error store⟩

/-- The bindings of several parameters, or of none, to the components of a tuple of as many. -/
def tupledBindings (params : List Name) (argument : Value Code) :
    Except Error (List (Binding Code)) :=
  match argument with
  | .tuple components =>
    if components.length = params.length then .ok (params.zip components)
    else .error (.arityMismatch params.length components.length)
  | other => .error (.typeMismatch s!"a tuple of {params.length} values" other.typeName)

/-- The bindings that a function makes for its parameters. A single parameter is bound to the
argument itself. -/
def parameterBindings (params : List Name) (argument : Value Code) :
    Except Error (List (Binding Code)) :=
  match params with
  | [param] => .ok [(param, argument)]
  | params => tupledBindings params argument

/-- Opens an environment inside `parent` in which parameters are bound to an argument. -/
def openScope (params : List Name) (argument : Value Code) (parent : EnvId) :
    Computation Code EnvId := do
  let bindings ← ofResult (parameterBindings params argument)
  openWith parent bindings

/-- Applies a builtin, after the arguments it has received, to an argument. -/
def call (builtin : Builtin) (received : List (Value Code)) (argument : Value Code) :
    Computation Code (Value Code) := do
  display (builtin.shown argument)
  ofResult (builtin.apply received argument)

variable {Code' : Type} {R : Closure Code → Closure Code' → Prop}

/-- Parameters are bound to the parts of related arguments. -/
theorem zip_related (params : List Name) {vs : List (Value Code)} {ws : List (Value Code')}
    (h : List.Forall₂ (Value.Related R) vs ws) :
    List.Forall₂ (BindingRelated R) (params.zip vs) (params.zip ws) := by
  induction h generalizing params with
  | nil => simp
  | cons hvw _ ih =>
    cases params with
    | nil => simp
    | cons param params => exact .cons ⟨rfl, hvw⟩ (ih params)

/-- Several parameters, or none, are bound to related tuples alike. -/
theorem tupledBindings_agree (params : List Name) {v : Value Code} {w : Value Code'}
    (h : Value.Related R v w) :
    Agree (List.Forall₂ (BindingRelated R)) (tupledBindings params v)
      (tupledBindings params w) := by
  cases h with
  | tuple hvs =>
    rw [tupledBindings, tupledBindings, hvs.length_eq]
    split
    · exact .ok (zip_related params hvs)
    · exact .error _ trivial
  | _ => exact .error _ trivial

/-- Parameters are bound to related arguments alike. -/
theorem parameterBindings_agree (params : List Name) {v : Value Code} {w : Value Code'}
    (h : Value.Related R v w) :
    Agree (List.Forall₂ (BindingRelated R)) (parameterBindings params v)
      (parameterBindings params w) := by
  match params with
  | [param] => exact .ok (.cons ⟨rfl, h⟩ .nil)
  | [] => exact tupledBindings_agree [] h
  | first :: second :: rest => exact tupledBindings_agree (first :: second :: rest) h

end Computation

end EagerLambda
