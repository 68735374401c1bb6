import EagerLambda.Proofs.Evaluation.Computation
import EagerLambda.Proofs.Machine.Run

/-!
# Machines that follow a computation

An evaluator and the machine are compared by what the machine does while the evaluator computes.
If the evaluator answers a value, the machine gets to a state that has this value on top of the
operand stack; if it fails, the machine fails with the same error; and if its clock runs out, the
machine is still running after at least as many turns. In between, the environments and the output
of the machine stand for those of the evaluator.

## Main definitions

- `Machine.Shares` — a state stands for a store
- `Machine.Matches` — a state stands for a store and has certain stacks
- `Machine.Follows` — what the machine does follows an answer

## Main statements

- `Machine.Follows.bind` — following one computation after the other
- `Machine.Follows.turn` — taking a turn while the evaluator waits
- `Machine.Matches.turn_item` — how a turn takes an item
- `Machine.Matches.leave` — closing a scope
-/

namespace EagerLambda

open Control

namespace Machine

variable {Code α β : Type} {R : Closure Code → Closure → Prop}

/-- The environments and the output of a state stand for those of a store. -/
structure Shares (R : Closure Code → Closure → Prop) (store : Store Code) (s : State) : Prop where
  envs : Environments.Related R store.envs s.envs
  shown : List.Forall₂ (Value.Related R) store.shown s.shown

/-- The state stands for the store and has these stacks. Names are looked up in the innermost
scope. -/
structure Matches (R : Closure Code → Closure → Prop) (control : List Scope)
    (stack : List Operand) (store : Store Code) (s : State) : Prop extends Shares R store s where
  scopes : s.scopes = control
  operands : s.operands = stack
  current : s.current = control.head?.map Scope.env

/-- The state has a value on top of these stacks that stands for a value of the evaluator. -/
def Returned (R : Closure Code → Closure → Prop) (scopes : List Scope) (operands : List Operand)
    (result : Value Code) (store : Store Code) (s : State) : Prop :=
  ∃ v, Value.Related R result v ∧ Matches R scopes (.value v :: operands) store s

/-- What the machine does after the turn `t` follows an answer. If the answer is a value, the
machine gets to a state with the property `Post`; if there is no answer, it is still running after
at least `clock` turns. -/
inductive Follows (R : Closure Code → Closure → Prop) (machine : Machine) (clock : Nat)
    (Post : α → Store Code → State → Prop) (t : Turn) : Answer Code α → Prop
  | value {result : α} {store : Store Code} {s : State} (turns : Nat) :
      machine.resume turns t = .next s → Post result store s →
      Follows R machine clock Post t (.value result store)
  | failed {error : Error} {store : Store Code} {s : State} (turns : Nat) :
      machine.resume turns t = .failed error s → Shares R store s →
      Follows R machine clock Post t (.failed error store)
  | pending {s : State} : machine.resume clock t = .next s → Follows R machine clock Post t .pending

namespace Follows

variable {machine : Machine} {clock clock' : Nat} {Post : α → Store Code → State → Prop}
  {Post' : β → Store Code → State → Prop} {t : Turn} {answer : Answer Code α}
  {store : Store Code} {s : State}

/-- The machine is there already. -/
theorem done {result : α} (h : Post result store s) :
    Follows R machine clock Post (.next s) (.value result store) :=
  .value 0 rfl h

/-- The machine fails at once. -/
theorem fail (error : Error) (h : Shares R store s) :
    Follows R machine clock Post (.failed error s) (.failed error store) :=
  .failed 0 rfl h

theorem mono (h : Follows R machine clock Post t answer) (hle : clock' ≤ clock) :
    Follows R machine clock' Post t answer := by
  cases h with
  | value turns hrun hpost => exact .value turns hrun hpost
  | failed turns hrun hshares => exact .failed turns hrun hshares
  | pending hrun =>
    obtain ⟨s', hs'⟩ := resume_next_of_le hrun hle
    exact .pending hs'

/-- A turn that the machine takes while the evaluator waits. -/
theorem turn (h : Follows R machine clock Post (machine.turn s) answer) :
    Follows R machine (clock + 1) Post (.next s) answer := by
  cases h with
  | value turns hrun hpost => exact .value (turns + 1) hrun hpost
  | failed turns hrun hshares => exact .failed (turns + 1) hrun hshares
  | pending hrun => exact .pending hrun

/-- Following one computation after the other. -/
theorem bind {next : α → Store Code → Answer Code β}
    (h : Follows R machine clock Post t answer)
    (hnext : ∀ result store s, Post result store s →
      Follows R machine clock Post' (.next s) (next result store)) :
    Follows R machine clock Post' t (answer.andThen next) := by
  cases h with
  | @value result store s turns hrun hpost =>
    have hrest := hnext result store s hpost
    rw [Answer.andThen]
    generalize next result store = rest at hrest
    cases hrest with
    | value turns' hrun' hpost' =>
      refine .value (turns + turns') ?_ hpost'
      rw [resume_add, hrun, hrun']
    | failed turns' hrun' hshares' =>
      refine .failed (turns + turns') ?_ hshares'
      rw [resume_add, hrun, hrun']
    | @pending s' hrun' =>
      have hlong : machine.resume (turns + clock) t = .next s' := by rw [resume_add, hrun, hrun']
      obtain ⟨s'', hs''⟩ := resume_next_of_le hlong (Nat.le_add_left clock turns)
      exact .pending hs''
  | failed turns hrun hshares => exact .failed turns hrun hshares
  | pending hrun => exact .pending hrun

/-- After following a computation the machine goes on by itself. -/
theorem after {Post' : α → Store Code → State → Prop} (h : Follows R machine clock Post t answer)
    (hpost : ∀ result store s, Post result store s → ∃ turns s',
      machine.resume turns (.next s) = .next s' ∧ Post' result store s') :
    Follows R machine clock Post' t answer := by
  have hbind : Follows R machine clock Post' t (answer.andThen .value) :=
    h.bind fun result store s hresult => by
      obtain ⟨turns, s', hrun, hresult'⟩ := hpost result store s hresult
      exact .value turns hrun hresult'
  cases answer <;> exact hbind

end Follows

theorem applyTupled_eq (table : Table) (closure : Closure) (s : State) :
    s.applyTupled table closure = s.withValue fun argument s =>
      match Computation.tupledBindings closure.params argument with
      | .ok bindings => s.enter table closure bindings
      | .error error => .failed error s := by
  rw [State.applyTupled]
  congr 1
  funext argument s
  cases argument with
  | tuple components =>
    simp only [Computation.tupledBindings]
    split <;> rfl
  | _ => rfl

/-- The rules for functions of the program bind their parameters like the evaluator. -/
theorem apply_closure (table : Table) {closure : Closure} {s : State} {operands : List Operand}
    (h : s.operands = .value (.closure closure) :: operands) :
    s.apply table = { s with operands := operands }.withValue fun argument s =>
      match Computation.parameterBindings closure.params argument with
      | .ok bindings => s.enter table closure bindings
      | .error error => .failed error s := by
  have htupled := applyTupled_eq table closure { s with operands := operands }
  simp only [State.apply, State.withValue, h]
  match hparams : closure.params with
  | [param] => rfl
  | [] => rwa [hparams] at htupled
  | first :: second :: rest => rwa [hparams] at htupled

namespace Matches

variable {scopes : List Scope} {operands : List Operand} {store : Store Code} {s : State}
  {table : Table} {clock : Nat}

/-- The value on top of the operand stack is taken off. -/
theorem withValue {v : Value} {next : Value → State → Turn} {machine : Machine}
    {Post : α → Store Code → State → Prop} {answer : Answer Code α}
    (h : Matches R scopes (.value v :: operands) store s)
    (hnext : ∀ s', Matches R scopes operands store s' →
      Follows R machine clock Post (next v s') answer) :
    Follows R machine clock Post (s.withValue next) answer := by
  have hs : s.withValue next = next v { s with operands := operands } := by
    rw [State.withValue, h.operands]
  rw [hs]
  exact hnext _ { h with operands := rfl }

/-- The values on top of the operand stack are taken off. -/
theorem withValues {vs : List Value} {next : List Value → State → Turn} {machine : Machine}
    {Post : α → Store Code → State → Prop} {answer : Answer Code α}
    (h : Matches R scopes (vs.map .value ++ operands) store s)
    (hnext : ∀ s', Matches R scopes operands store s' →
      Follows R machine clock Post (next vs s') answer) :
    Follows R machine clock Post (s.withValues vs.length next) answer := by
  induction vs generalizing s next with
  | nil => exact hnext s h
  | cons v vs ih => exact h.withValue fun s' h' => ih h' hnext

/-- A value is pushed. -/
theorem push (h : Matches R scopes operands store s) (v : Value) :
    Matches R scopes (.value v :: operands) store (s.push v) :=
  { h with operands := by rw [State.push, h.operands] }

theorem returned {w : Value Code} {v : Value} (h : Matches R scopes operands store s)
    (hv : Value.Related R w v) : Returned R scopes operands w store (s.push v) :=
  ⟨v, hv, h.push v⟩

/-- The result of an operation is pushed, or the machine fails with its error. -/
theorem pushResult {r : Except Error (Value Code)} {r' : Except Error Value} {machine : Machine}
    (h : Matches R scopes operands store s) (hr : Agree (Value.Related R) r r') :
    Follows R machine clock (Returned R scopes operands) (s.pushResult r')
      ((Computation.ofResult r).run store) := by
  cases hr with
  | ok hv => exact .done (h.returned hv)
  | error e _ => exact .fail e h.toShares

/-- A turn takes the next item of the innermost scope. -/
theorem turn_item {item : Item} {todo : List Item} {env : EnvId} {outer : List Scope}
    {Post : α → Store Code → State → Prop} {answer : Answer Code α}
    (h : Matches R (⟨item :: todo, env⟩ :: outer) operands store s)
    (hnext : ∀ s', Matches R (⟨todo, env⟩ :: outer) operands store s' →
      Follows R ⟨table, none⟩ clock Post (perform table (.item item) s') answer) :
    Follows R ⟨table, none⟩ (clock + 1) Post (.next s) answer := by
  refine Follows.turn ?_
  rw [turn_of_item h.scopes]
  exact hnext _ { h with scopes := rfl }

/-- Items are put in front of the innermost scope. -/
theorem schedule (items : List Item) {todo : List Item} {env : EnvId} {outer : List Scope}
    (h : Matches R (⟨todo, env⟩ :: outer) operands store s) :
    Matches R (⟨items ++ todo, env⟩ :: outer) operands store (s.schedule items) := by
  have hs : s.schedule items = { s with scopes := ⟨items ++ todo, env⟩ :: outer } := by
    rw [State.schedule, h.scopes]
  rw [hs]
  exact { h with scopes := rfl }

/-- A scope in which nothing is left to be done is closed. -/
theorem leave (table : Table) {v : Value} {env : EnvId}
    (h : Matches R (⟨[], env⟩ :: scopes) (.value v :: .marker env :: operands) store s) :
    ∃ s', Machine.turn ⟨table, none⟩ s = .next s' ∧
      Matches R scopes (.value v :: operands) store s' := by
  have htake : s.takeTask? = some (.leave env, { s with scopes := scopes }) := by
    rw [State.takeTask?, h.scopes]
  have hturn : Machine.turn ⟨table, none⟩ s =
      ({ s with scopes := scopes } : State).charge.leave env := by
    rw [Machine.turn, htake]
    rfl
  refine ⟨{ s with
    scopes := scopes
    operands := .value v :: operands
    current := scopes.head?.map Scope.env
    steps := min (s.steps + 1) stepLimit }, ?_, ?_⟩
  · rw [hturn]
    simp only [State.leave, State.withValue, State.charge, h.operands, if_true]
  · exact { h with scopes := rfl, operands := rfl, current := rfl }

/-- With a single value left and nothing to be done the machine halts. -/
theorem halt (table : Table) {v : Value} (h : Matches R [] [.value v] store s) :
    ∃ s', Machine.turn ⟨table, none⟩ s = .halted v s' ∧ Shares R store s' := by
  have htake : s.takeTask? = none := by rw [State.takeTask?, h.scopes]
  refine ⟨{ s with operands := [] }, ?_, ⟨h.envs, h.shown⟩⟩
  rw [Machine.turn, htake]
  simp only [finish, State.withValue, h.operands]

end Matches

/-- The outermost scope is closed and the machine halts with the value left in it. -/
theorem Returned.halt (table : Table) {env : EnvId} {w : Value Code} {store : Store Code}
    {s : State} (h : Returned R [⟨[], env⟩] [.marker env] w store s) :
    ∃ v s', resume ⟨table, none⟩ 2 (.next s) = .halted v s' ∧ Value.Related R w v ∧
      Shares R store s' := by
  obtain ⟨v, hv, hmatches⟩ := h
  obtain ⟨s₁, hturn₁, h₁⟩ := hmatches.leave table
  obtain ⟨s₂, hturn₂, h₂⟩ := h₁.halt table
  refine ⟨v, s₂, ?_, hv, h₂⟩
  rw [resume_succ, hturn₁, resume_succ, hturn₂, resume_zero]

end Machine

end EagerLambda
