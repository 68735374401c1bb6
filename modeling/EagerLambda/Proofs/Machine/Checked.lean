import EagerLambda.Proofs.Control.Listing
import EagerLambda.Proofs.Machine.Renumbering

/-!
# A machine with checked indexing

The rules of the machine read by index in a few places: the parameter of a function that binds one
name, the text of a name that is not bound, the texts that show a value or an item, the byte at
which a string is cut, and the root environment. A checked machine does each of these reads where
the rule does it. It takes the same turns as the machine itself as long as every name in its state
was given out by the table of names, and every turn leads from such a state to such a state.

## Main definitions

- `Machine.State.Known` — a state whose names were given out by a table
- `Machine.turnChecked`, `Machine.advanceChecked` — turns with checked indexing

## Main statements

- `Machine.State.Known.turnChecked_eq` — one turn keeps every index in bounds
- `Machine.State.Known.advanceChecked_eq` — so does a run of any number of turns
-/

namespace EagerLambda

open Control NameTable

variable {names : NameTable}

-- ════════════════════════════════════════════════════════════════════════
-- The root environment
-- ════════════════════════════════════════════════════════════════════════

namespace Environments

/-- Binds a name in the root environment, which has to be there. -/
def bindRootChecked (envs : Environments) (binding : Binding) : Option Environments :=
  if EnvId.root.index < envs.size then some (envs.bindRoot binding) else none

/-- Makes bindings in the root environment, one after the other. -/
def bindAllChecked (envs : Environments) (bindings : List Binding) : Option Environments :=
  bindings.foldlM bindRootChecked envs

theorem bindAllChecked_eq {envs : Environments} (h : 0 < envs.size) (bindings : List Binding) :
    envs.bindAllChecked bindings = some (envs.bindAll bindings) := by
  induction bindings generalizing envs with
  | nil => rfl
  | cons binding rest ih =>
    have hbind : envs.bindRootChecked binding = some (envs.bindRoot binding) := if_pos h
    have hsize : 0 < (envs.bindRoot binding).size := by simpa [bindRoot, size] using h
    rw [bindAllChecked, List.foldlM_cons, hbind]
    exact ih hsize

end Environments

namespace Machine

/-- The environments that a run starts with. -/
def Settings.environmentsChecked (settings : Settings) : Option Environments := do
  let root ←
    if settings.primitives then Environments.empty.bindAllChecked EagerLambda.primitives
    else some Environments.empty
  root.bindAllChecked settings.bindings

theorem Settings.environmentsChecked_eq (settings : Settings) :
    settings.environmentsChecked = some settings.environments := by
  have hempty : 0 < (Environments.empty : Environments).size := Nat.one_pos
  rw [environmentsChecked, environments]
  split
  · rw [Environments.bindAllChecked_eq hempty]
    exact Environments.bindAllChecked_eq (by decide) settings.bindings
  · exact Environments.bindAllChecked_eq hempty settings.bindings

-- ════════════════════════════════════════════════════════════════════════
-- Rules
-- ════════════════════════════════════════════════════════════════════════

namespace State

/-- Goes on with the value on top of the operand stack, taken off it. -/
def withValueChecked (s : State) (next : Value → State → Option Turn) : Option Turn :=
  match s.operands with
  | [] => some (.failed (.machine .underflow) s)
  | .marker env :: rest =>
    some (.failed (.machine (.expectedValue env)) { s with operands := rest })
  | .value v :: rest => next v { s with operands := rest }

/-- Pushes a constant, or the value of a name in the current environment. The text of a name that is
not bound is needed to report it. -/
def loadChecked (names : NameTable) (atom : Atom) (s : State) : Option Turn :=
  match atom with
  | .identifier x =>
    match s.current with
    | none => some (.failed (.machine .noCurrentEnvironment) s)
    | some env =>
      match s.envs.lookup env x with
      | some value => some (.next (s.push value))
      | none => do
        let _ ← names.text? x
        some (.failed (.unboundVariable x) s)
  | atom => some (s.load atom)

/-- Applies a function that binds one name to the operand beneath it. -/
def applySingleChecked (table : Table) (closure : Closure) (s : State) : Option Turn :=
  s.withValueChecked fun argument s => do
    let param ← closure.params[0]?
    some (s.enter table closure [(param, argument)])

/-- Applies a builtin, after the arguments it has received, to the operand beneath it. -/
def callChecked (names : NameTable) (builtin : Builtin) (received : List Value) (s : State) :
    Option Turn :=
  s.withValueChecked fun argument s => do
    let result ← (builtin.applyChecked names received argument).run
    some ({ s with shown := builtin.shown argument ++ s.shown }.pushResult result)

/-- Applies the operand on top to the one beneath it. -/
def applyChecked (table : Table) (names : NameTable) (s : State) : Option Turn :=
  s.withValueChecked fun function s =>
    match function with
    | .closure closure =>
      if closure.params.length = 1 then s.applySingleChecked table closure
      else some (s.applyTupled table closure)
    | .tuple (first :: rest) => some (s.select (first :: rest))
    | .fixpoint => some s.makeRecursive
    | .eta closure => some (s.unfold closure)
    | .builtin builtin => s.callChecked names builtin []
    | .partialApp builtin received => s.callChecked names builtin received
    | other => some (.failed (.typeMismatch "a function or tuple" other.typeName) s)

/-- Applies a unary operator. -/
def unaryChecked (names : NameTable) (op : UnaryOp) (s : State) : Option Turn :=
  match op with
  | .print => s.callChecked names .print []
  | op => some (s.unary op)

end State

/-- Applies the rule for an entry that was taken off the control stack. An item that no rule applies
to is described. -/
def performChecked (table : Table) (names : NameTable) (task : Task) (s : State) : Option Turn :=
  match task with
  | .item (.load atom) => s.loadChecked names atom
  | .item .gamma => s.applyChecked table names
  | .item (.unary op) => s.unaryChecked names op
  | .item (.branch thenId elseId) => do
    let text ← (Item.branch thenId elseId).describe? names
    some (.failed (.unknownItem text) s)
  | task => some (perform table task s)

/-- One turn. -/
def turnChecked (machine : Machine) (names : NameTable) (s : State) : Option Turn :=
  match s.takeTask? with
  | none => some (finish s)
  | some (task, s) =>
    let s := s.charge
    match machine.overrun? s.steps with
    | some budget => some (.failed (.budgetExhausted budget) s)
    | none => performChecked machine.table names task s

/-- At most `fuel` turns. -/
def advanceChecked (machine : Machine) (names : NameTable) :
    (fuel : Nat) → (s : State) → Option Turn
  | 0, s => some (.next s)
  | fuel + 1, s => do
    match ← machine.turnChecked names s with
    | .next s => machine.advanceChecked names fuel s
    | stopped => some stopped

-- ════════════════════════════════════════════════════════════════════════
-- Known names
-- ════════════════════════════════════════════════════════════════════════

/-- Every name in the state was given out by the table: up to the texts of names, the state is the
same as itself. -/
abbrev State.Known (names : NameTable) (s : State) : Prop := s.Renumbered (SameText names names) s

end Machine

/-- A value is the same as itself if its functions bind known names. -/
theorem Value.known_iff {v : Value} : v.Renumbered (SameText names names) v ↔ v.Known names := by
  have hclosure : (fun c : Closure => c.Renumbered (SameText names names) c) =
      fun c => ∀ x ∈ c.params, names.Holds x := by
    funext c
    refine propext ⟨fun hc x hx => sameText_self_iff.1 (List.forall₂_same.1 hc.params x hx), ?_⟩
    intro hc
    exact ⟨rfl, List.forall₂_same.2 fun x hx => sameText_self_iff.2 (hc x hx), rfl⟩
  rw [Renumbered, related_self_iff, hclosure, Known]

namespace Machine

variable {s : State} {table : Table}

namespace State

theorem Known.withValueChecked_eq (h : s.Known names) {next : Value → State → Option Turn}
    {next' : Value → State → Turn}
    (hnext : ∀ v t, v.Renumbered (SameText names names) v → t.Known names →
      next v t = some (next' v t)) :
    s.withValueChecked next = some (s.withValue next') := by
  have hops := h.operands
  rw [withValueChecked, withValue]
  cases hs : s.operands with
  | nil => rfl
  | cons top rest =>
    rw [hs] at hops
    obtain _ | ⟨htop, hrest⟩ := hops
    cases htop with
    | value hv => exact hnext _ _ hv (h.withOperands hrest)
    | marker env => rfl

theorem loadChecked_eq (s : State) {a : Atom} (ha : a.Renumbered (SameText names names) a) :
    s.loadChecked names a = some (s.load a) := by
  cases ha with
  | identifier hx =>
    have htext := (sameText_self_iff.1 hx).text?_eq
    simp only [loadChecked, load, withCurrent, pushResult, Environments.resolve]
    cases s.current with
    | none => rfl
    | some env =>
      simp only
      cases s.envs.lookup env _ with
      | none =>
        rw [htext]
        rfl
      | some value => rfl
  | constant hconstant =>
    cases a with
    | identifier x => exact absurd rfl (hconstant x)
    | _ => rfl

theorem Known.applySingleChecked_eq (h : s.Known names) {closure : Closure} {param : Name}
    (hparams : closure.params = [param]) :
    s.applySingleChecked table closure = some (s.applySingle table closure param) :=
  h.withValueChecked_eq fun _ _ _ _ => by
    rw [hparams]
    rfl

theorem Known.callChecked_eq (h : s.Known names) (builtin : Builtin) (received : List Value) :
    s.callChecked names builtin received = some (s.call builtin received) :=
  h.withValueChecked_eq fun argument t hargument _ => by
    rw [builtin.applyChecked_gives received (Value.known_iff.1 hargument)]
    rfl

theorem Known.applyChecked_eq (h : s.Known names) :
    s.applyChecked table names = some (s.apply table) := by
  refine h.withValueChecked_eq fun function t hfunction ht => ?_
  cases function with
  | closure c =>
    simp only
    split
    · next hcount =>
      obtain ⟨param, hparams⟩ := List.length_eq_one_iff.1 hcount
      rw [ht.applySingleChecked_eq hparams, hparams]
    · next hcount =>
      split
      · next param hparams =>
        rw [hparams] at hcount
        exact absurd rfl hcount
      · rfl
  | tuple vs => cases vs <;> rfl
  | builtin b => exact ht.callChecked_eq b []
  | partialApp b received => exact ht.callChecked_eq b received
  | _ => rfl

theorem Known.unaryChecked_eq (h : s.Known names) (op : UnaryOp) :
    s.unaryChecked names op = some (s.unary op) := by
  cases op with
  | print => exact h.callChecked_eq .print []
  | _ => rfl

end State

/-- No rule has an index out of bounds in a known state. -/
theorem performChecked_eq {task : Task}
    (h : TaskRenumbered (SameText names names) (task, s) (task, s)) :
    performChecked table names task s = some (perform table task s) := by
  cases h with
  | leave env _ => rfl
  | item hitem hs =>
    cases hitem with
    | load ha => exact s.loadChecked_eq ha
    | gamma => exact State.Known.applyChecked_eq hs
    | unary op => exact State.Known.unaryChecked_eq hs op
    | _ => rfl

/-- A turn from a known state keeps every index in bounds. -/
theorem State.Known.turnChecked_eq (h : s.Known names) (machine : Machine) :
    machine.turnChecked names s = some (machine.turn s) := by
  have htask := h.takeTask
  rw [turnChecked, turn]
  cases htaken : s.takeTask? with
  | none => rfl
  | some taken =>
    rw [htaken] at htask
    obtain ⟨task, t⟩ := taken
    obtain ⟨htask⟩ := htask
    have hcharged : TaskRenumbered (SameText names names) (task, t.charge) (task, t.charge) := by
      cases htask with
      | item hitem ht => exact .item hitem ht.charge
      | leave env ht => exact .leave env ht.charge
    simp only
    cases machine.overrun? t.charge.steps with
    | some budget => rfl
    | none => exact performChecked_eq hcharged

/-- A run of any number of turns from a known state keeps every index in bounds. -/
theorem State.Known.advanceChecked_eq (hnames : names.Sound) {machine : Machine}
    (htable : machine.table.Renumbered (SameText names names) machine.table) (fuel : Nat)
    (h : s.Known names) : machine.advanceChecked names fuel s = some (machine.advance fuel s) := by
  -- The invariant is that the state is the same as itself, which a turn keeps as it keeps the
  -- sameness of any two states.
  induction fuel generalizing s with
  | zero => rfl
  | succ fuel ih =>
    have hturn : (machine.turn s).Renumbered (SameText names names) (machine.turn s) :=
      turn_renumbered (hnames.renumbering hnames) htable machine.budget h
    rw [advanceChecked, advance_succ, h.turnChecked_eq machine]
    cases hnext : machine.turn s with
    | next t =>
      rw [hnext] at hturn
      obtain hknown | _ | _ := hturn
      exact ih hknown
    | halted value t => rfl
    | failed error t => rfl

end Machine

end EagerLambda
