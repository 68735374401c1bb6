import EagerLambda.Proofs.Environment.Renumbering
import EagerLambda.Proofs.Machine.Follows

/-!
# Machines with other handles for the same names

A machine compares handles when it looks up a name and copies them everywhere else. So two machines
whose tables and states are the same up to handles take turns that are, and stop for the same reason
with the same value up to handles.

## Main definitions

- `Machine.State.Renumbered`, `Machine.Turn.Renumbered` — the same up to handles

## Main statements

- `Machine.turn_renumbered` — one turn
- `Machine.advance_renumbered` — a run of any number of turns
-/

namespace EagerLambda

open Control

namespace Machine

variable {R : Name → Name → Prop}

/-- The operands are markers of the same environment, or values that are the same up to handles. -/
inductive Operand.Renumbered (R : Name → Name → Prop) : Operand → Operand → Prop
  | value {v w : Value} : v.Renumbered R w → Renumbered R (.value v) (.value w)
  | marker (env : EnvId) : Renumbered R (.marker env) (.marker env)

/-- The scopes belong to the same environment and have the same items left up to handles. -/
structure Scope.Renumbered (R : Name → Name → Prop) (c d : Scope) : Prop where
  todo : Items R c.todo d.todo
  env : c.env = d.env

/-- The states are the same up to handles. -/
structure State.Renumbered (R : Name → Name → Prop) (s s' : State) : Prop where
  scopes : List.Forall₂ (Scope.Renumbered R) s.scopes s'.scopes
  operands : List.Forall₂ (Operand.Renumbered R) s.operands s'.operands
  envs : s.envs.Renumbered R s'.envs
  current : s.current = s'.current
  steps : s.steps = s'.steps
  shown : List.Forall₂ (Value.Renumbered R) s.shown s'.shown

/-- The turns come to the same up to handles. -/
inductive Turn.Renumbered (R : Name → Name → Prop) : Turn → Turn → Prop
  | next {s s' : State} : s.Renumbered R s' → Renumbered R (.next s) (.next s')
  | halted {v w : Value} {s s' : State} : v.Renumbered R w → s.Renumbered R s' →
      Renumbered R (.halted v s) (.halted w s')
  | failed {e e' : Error} {s s' : State} : e.Renumbered R e' → s.Renumbered R s' →
      Renumbered R (.failed e s) (.failed e' s')

/-- What is taken off the two control stacks is the same up to handles. -/
inductive TaskRenumbered (R : Name → Name → Prop) : Task × State → Task × State → Prop
  | item {item item' : Item} {s s' : State} : item.Renumbered R item' → s.Renumbered R s' →
      TaskRenumbered R (.item item, s) (.item item', s')
  | leave (env : EnvId) {s s' : State} : s.Renumbered R s' →
      TaskRenumbered R (.leave env, s) (.leave env, s')

variable {s s' : State} {table table' : Table}

/-- The innermost scopes belong to the same environment. -/
theorem innermost_eq {cs ds : List Scope} (h : List.Forall₂ (Scope.Renumbered R) cs ds) :
    cs.head?.map Scope.env = ds.head?.map Scope.env := by
  cases h with
  | nil => rfl
  | cons hcd _ => exact congrArg some hcd.env

namespace State.Renumbered

theorem fail (h : s.Renumbered R s') {error : Error} (herror : error.name? = none) :
    Turn.Renumbered R (.failed error s) (.failed error s') :=
  .failed (.same herror) h

theorem withOperands (h : s.Renumbered R s') {ops ops' : List Operand}
    (hops : List.Forall₂ (Operand.Renumbered R) ops ops') :
    ({ s with operands := ops } : State).Renumbered R { s' with operands := ops' } :=
  { h with operands := hops }

theorem push (h : s.Renumbered R s') {v w : Value} (hvw : v.Renumbered R w) :
    (s.push v).Renumbered R (s'.push w) :=
  h.withOperands (.cons (.value hvw) h.operands)

theorem pushResult (h : s.Renumbered R s') {r r' : Except Error Value}
    (hr : Alike R (Value.Renumbered R) r r') :
    (s.pushResult r).Renumbered R (s'.pushResult r') := by
  cases hr with
  | ok hvw => exact .next (h.push hvw)
  | error he => exact .failed he h

/-- Taking off the topmost operand. -/
theorem withValue (h : s.Renumbered R s') {next next' : Value → State → Turn}
    (hnext : ∀ v w t t', v.Renumbered R w → t.Renumbered R t' →
      (next v t).Renumbered R (next' w t')) :
    (s.withValue next).Renumbered R (s'.withValue next') := by
  have hops := h.operands
  rw [State.withValue, State.withValue]
  generalize s.operands = ops at hops
  generalize s'.operands = ops' at hops
  cases hops with
  | nil => exact h.fail rfl
  | cons htop hrest =>
    cases htop with
    | value hvw => exact hnext _ _ _ _ hvw (h.withOperands hrest)
    | marker env => exact (h.withOperands hrest).fail rfl

theorem withValues (h : s.Renumbered R s') (count : Nat)
    {next next' : List Value → State → Turn}
    (hnext : ∀ vs ws t t', List.Forall₂ (Value.Renumbered R) vs ws → t.Renumbered R t' →
      (next vs t).Renumbered R (next' ws t')) :
    (s.withValues count next).Renumbered R (s'.withValues count next') := by
  induction count generalizing s s' next next' with
  | zero => exact hnext [] [] s s' .nil h
  | succ count ih =>
    refine h.withValue fun v w t t' hvw ht => ih ht fun vs ws u u' hvs hu => ?_
    exact hnext (v :: vs) (w :: ws) u u' (.cons hvw hvs) hu

theorem withCurrent (h : s.Renumbered R s') {next next' : EnvId → Turn}
    (hnext : ∀ env, (next env).Renumbered R (next' env)) :
    (s.withCurrent next).Renumbered R (s'.withCurrent next') := by
  rw [State.withCurrent, State.withCurrent, h.current]
  cases s'.current with
  | none => exact h.fail rfl
  | some env => exact hnext env

theorem schedule (h : s.Renumbered R s') {items items' : List Item}
    (hitems : Items R items items') :
    (s.schedule items).Renumbered R (s'.schedule items') := by
  have hscopes := h.scopes
  rw [State.schedule, State.schedule]
  generalize s.scopes = cs at hscopes
  generalize s'.scopes = ds at hscopes
  cases hscopes with
  | nil => exact h
  | @cons c d _ _ hcd houter =>
    obtain ⟨todo, env⟩ := c
    obtain ⟨todo', env'⟩ := d
    exact { h with scopes := .cons ⟨List.rel_append hitems hcd.todo, hcd.env⟩ houter }

theorem splice (h : s.Renumbered R s') (htable : table.Renumbered R table') (id : ControlId) :
    (s.splice table id).Renumbered R (s'.splice table' id) := by
  have hget := htable.get?_rel id
  rw [State.splice, State.splice]
  generalize table.get? id = found at hget
  generalize table'.get? id = found' at hget
  cases hget with
  | none => exact h.fail rfl
  | some hfound => exact .next (h.schedule hfound.executionOrder)

/-- Opening a scope for functions that are the same up to handles. -/
theorem enter (h : s.Renumbered R s') (htable : table.Renumbered R table') {c d : Closure}
    (hcd : c.Renumbered R d) {bs cs : List Binding}
    (hbs : List.Forall₂ (BindingRenumbered R) bs cs) :
    (s.enter table c bs).Renumbered R (s'.enter table' d cs) := by
  rw [State.enter, State.enter, hcd.env, hcd.body,
    Environments.openFault?_of_size h.envs.size_eq, Environments.nextId_of_size h.envs.size_eq]
  cases s'.envs.openFault? d.env with
  | some fault => exact h.fail rfl
  | none =>
    refine splice ?_ htable d.body
    exact {
      scopes := .cons ⟨.nil, rfl⟩ h.scopes
      operands := .cons (.marker _) h.operands
      envs := h.envs.push d.env hbs
      current := rfl
      steps := h.steps
      shown := h.shown }

/-- Closing a scope that was taken off the control stack. -/
theorem leave (h : s.Renumbered R s') (env : EnvId) :
    (s.leave env).Renumbered R (s'.leave env) := by
  refine h.withValue fun v w t t' hvw ht => ?_
  have hops := ht.operands
  generalize t.operands = ops at hops
  generalize t'.operands = ops' at hops
  cases hops with
  | nil => exact (ht.withOperands .nil).fail rfl
  | cons htop hrest =>
    cases htop with
    | value _ => exact (ht.withOperands hrest).fail rfl
    | marker found =>
      simp only
      split
      · exact .next { ht with
          operands := .cons (.value hvw) hrest
          current := innermost_eq ht.scopes }
      · exact (ht.withOperands hrest).fail rfl

theorem load (hR : Renumbering R) (h : s.Renumbered R s') {a b : Atom} (hab : a.Renumbered R b) :
    (s.load a).Renumbered R (s'.load b) := by
  cases hab with
  | identifier hxy =>
    exact h.withCurrent fun env => h.pushResult (h.envs.resolve hR hxy env)
  | constant ha =>
    cases a with
    | identifier x => exact absurd rfl (ha x)
    | integer n => exact .next (h.push (.integer n))
    | string text => exact .next (h.push (.string text))
    | truth b => exact .next (h.push (.truth b))
    | nil => exact .next (h.push Value.related_nil)
    | dummy => exact .next (h.push .dummy)

theorem makeClosure (h : s.Renumbered R s') (body : ControlId) {xs ys : List Name}
    (hxys : List.Forall₂ R xs ys) :
    (s.makeClosure body xs).Renumbered R (s'.makeClosure body ys) :=
  h.withCurrent fun _ => .next (h.push (.closure ⟨rfl, hxys, rfl⟩))

theorem select (h : s.Renumbered R s') {vs ws : List Value}
    (hvs : List.Forall₂ (Value.Renumbered R) vs ws) :
    (s.select vs).Renumbered R (s'.select ws) := by
  refine h.withValue fun v w t t' hvw ht => ?_
  cases hvw with
  | integer i =>
    have hrel := State.component?_rel hvs i
    rw [hvs.length_eq]
    simp only
    generalize State.component? vs i = c at hrel ⊢
    generalize State.component? ws i = d at hrel ⊢
    cases hrel with
    | none => exact ht.fail rfl
    | some hcd => exact .next (ht.push hcd)
  | _ => exact ht.fail rfl

theorem makeRecursive (h : s.Renumbered R s') :
    s.makeRecursive.Renumbered R s'.makeRecursive := by
  refine h.withValue fun v w t t' hvw ht => ?_
  cases hvw with
  | closure hcd => exact .next (ht.push (.eta hcd))
  | _ => exact ht.fail rfl

theorem unfold (h : s.Renumbered R s') {c d : Closure} (hcd : c.Renumbered R d) :
    (s.unfold c).Renumbered R (s'.unfold d) :=
  .next (((h.push (.eta hcd)).push (.closure hcd)).schedule (.cons .gamma (.cons .gamma .nil)))

theorem call (h : s.Renumbered R s') (builtin : Builtin) {vs ws : List Value}
    (hvs : List.Forall₂ (Value.Renumbered R) vs ws) :
    (s.call builtin vs).Renumbered R (s'.call builtin ws) := by
  refine h.withValue fun v w t t' hvw ht => ?_
  have hshown : ({ t with shown := builtin.shown v ++ t.shown } : State).Renumbered R
      { t' with shown := builtin.shown w ++ t'.shown } :=
    { ht with shown := List.rel_append (builtin.shown_forall₂ hvw) ht.shown }
  exact hshown.pushResult (builtin.apply_alike hvs hvw)

/-- Applying functions that are the same up to handles to the operand beneath. -/
theorem applyFunction (h : s.Renumbered R s') (htable : table.Renumbered R table') {c d : Closure}
    {ops ops' : List Operand} (hs : s.operands = .value (.closure c) :: ops)
    (hs' : s'.operands = .value (.closure d) :: ops') (hcd : c.Renumbered R d)
    (hops : List.Forall₂ (Operand.Renumbered R) ops ops') :
    (s.apply table).Renumbered R (s'.apply table') := by
  rw [apply_closure table hs, apply_closure table' hs']
  refine (h.withOperands hops).withValue fun v w t t' hvw ht => ?_
  have halike := Computation.parameterBindings_alike hcd.params hvw
  generalize Computation.parameterBindings c.params v = r at halike ⊢
  generalize Computation.parameterBindings d.params w = r' at halike ⊢
  cases halike with
  | error he => exact .failed he ht
  | ok hbindings => exact ht.enter htable hcd hbindings

theorem apply (h : s.Renumbered R s') (htable : table.Renumbered R table') :
    (s.apply table).Renumbered R (s'.apply table') := by
  have hoperands := h.operands
  generalize hs : s.operands = ops at hoperands
  generalize hs' : s'.operands = ops' at hoperands
  cases hoperands with
  | nil =>
    simp only [State.apply, State.withValue, hs, hs']
    exact h.fail rfl
  | cons htop hrest =>
    have hrest' := h.withOperands hrest
    cases htop with
    | marker env =>
      simp only [State.apply, State.withValue, hs, hs']
      exact hrest'.fail rfl
    | value hvw =>
      have happly : ∀ c d, c.Renumbered R d → s.operands = .value (.closure c) :: _ →
          s'.operands = .value (.closure d) :: _ → (s.apply table).Renumbered R
            (s'.apply table') := fun _ _ hcd hc hd => h.applyFunction htable hc hd hcd hrest
      simp only [State.apply, State.withValue, hs, hs'] at happly ⊢
      cases hvw with
      | closure hcd => exact happly _ _ hcd rfl rfl
      | tuple hvs =>
        cases hvs with
        | nil => exact hrest'.fail rfl
        | cons hfirst hothers => exact hrest'.select (.cons hfirst hothers)
      | eta hcd => exact hrest'.unfold hcd
      | fixpoint => exact hrest'.makeRecursive
      | builtin b => exact hrest'.call b .nil
      | partialApp b hvs => exact hrest'.call b hvs
      | _ => exact hrest'.fail rfl

theorem binary (h : s.Renumbered R s') (op : BinaryOp) :
    (s.binary op).Renumbered R (s'.binary op) :=
  h.withValue fun _ _ _ _ hvw ht => ht.withValue fun _ _ _ _ hvw' hu =>
    hu.pushResult (op.apply_alike hvw hvw')

theorem unary (h : s.Renumbered R s') (op : UnaryOp) :
    (s.unary op).Renumbered R (s'.unary op) := by
  have hoperand : (s.withValue fun v t => t.pushResult (op.apply v)).Renumbered R
      (s'.withValue fun v t => t.pushResult (op.apply v)) :=
    h.withValue fun _ _ _ _ hvw ht => ht.pushResult (op.apply_alike hvw)
  cases op with
  | print => exact h.call .print .nil
  | not => exact hoperand
  | neg => exact hoperand

theorem tuple (h : s.Renumbered R s') (count : Nat) :
    (s.tuple count).Renumbered R (s'.tuple count) :=
  h.withValues count fun _ _ _ _ hvs ht => .next (ht.push (.tuple hvs))

/-- Taking the top entry off the control stack. -/
theorem takeTask (h : s.Renumbered R s') :
    Option.Rel (TaskRenumbered R) s.takeTask? s'.takeTask? := by
  have hscopes := h.scopes
  rw [State.takeTask?, State.takeTask?]
  generalize s.scopes = cs at hscopes
  generalize s'.scopes = ds at hscopes
  cases hscopes with
  | nil => exact .none
  | @cons c d _ _ hcd houter =>
    obtain ⟨todo, env⟩ := c
    obtain ⟨todo', env'⟩ := d
    obtain ⟨htodo, rfl⟩ := hcd
    cases htodo with
    | nil => exact .some (.leave env { h with scopes := houter })
    | cons hitem hrest => exact .some (.item hitem { h with scopes := .cons ⟨hrest, rfl⟩ houter })

/-- Executing the arm that a truth value chooses from the next item of the scope. -/
theorem branch (h : s.Renumbered R s') (htable : table.Renumbered R table') :
    (s.branch table).Renumbered R (s'.branch table') := by
  refine h.withValue fun v w t t' hvw ht => ?_
  cases hvw with
  | truth b =>
    have htask := ht.takeTask
    simp only
    generalize t.takeTask? = taken at htask ⊢
    generalize t'.takeTask? = taken' at htask ⊢
    cases htask with
    | none => exact ht.fail rfl
    | some htaken =>
      cases htaken with
      | leave env hleft => exact hleft.fail rfl
      | item hitem hleft =>
        cases hitem with
        | branch thenId elseId => exact hleft.splice htable _
        | _ => exact hleft.fail rfl
  | _ => exact ht.fail rfl

theorem charge (h : s.Renumbered R s') : s.charge.Renumbered R s'.charge :=
  { h with steps := by rw [State.charge, State.charge, h.steps] }

/-- Halting with the only operand. -/
theorem finish (h : s.Renumbered R s') :
    (Machine.finish s).Renumbered R (Machine.finish s') := by
  have hoperands := h.operands
  have hlength := hoperands.length_eq
  have hhalt := h.withValue fun _ _ _ _ hvw ht => Turn.Renumbered.halted hvw ht
  rw [Machine.finish, Machine.finish]
  generalize s.operands = ops at hoperands hlength
  generalize s'.operands = ops' at hoperands hlength
  rcases hoperands with _ | ⟨_, _ | ⟨_, _⟩⟩
  · exact h.fail rfl
  · exact hhalt
  · simp only [hlength]
    exact h.fail rfl

end State.Renumbered

/-- Applying the rules for entries that are the same up to handles. -/
theorem perform_renumbered (hR : Renumbering R) (htable : table.Renumbered R table')
    {task task' : Task} (htask : TaskRenumbered R (task, s) (task', s')) :
    (perform table task s).Renumbered R (perform table' task' s') := by
  cases htask with
  | leave env h => exact h.leave env
  | item hitem h =>
    cases hitem with
    | load hab => exact h.load hR hab
    | gamma => exact h.apply htable
    | binary op => exact h.binary op
    | unary op => exact h.unary op
    | lambda body hxys => exact h.makeClosure body hxys
    | tau count => exact h.tuple count
    | branch thenId elseId => exact h.fail rfl
    | beta => exact h.branch htable

/-- States that are the same up to handles take turns that are. -/
theorem turn_renumbered (hR : Renumbering R) (htable : table.Renumbered R table')
    (budget : Option Nat) (h : s.Renumbered R s') :
    (turn ⟨table, budget⟩ s).Renumbered R (turn ⟨table', budget⟩ s') := by
  have htask := h.takeTask
  have hoverrun : ∀ steps, overrun? ⟨table', budget⟩ steps = overrun? ⟨table, budget⟩ steps :=
    fun _ => rfl
  rw [turn, turn]
  generalize s.takeTask? = taken at htask ⊢
  generalize s'.takeTask? = taken' at htask ⊢
  cases htask with
  | none => exact h.finish
  | some htaken =>
    cases htaken with
    | item hitem hleft =>
      have hcharged := hleft.charge
      simp only [hoverrun, hcharged.steps]
      split
      · exact hcharged.fail rfl
      · exact perform_renumbered hR htable (.item hitem hcharged)
    | leave env hleft =>
      have hcharged := hleft.charge
      simp only [hoverrun, hcharged.steps]
      split
      · exact hcharged.fail rfl
      · exact perform_renumbered hR htable (.leave env hcharged)

/-- Runs of any number of turns from states that are the same up to handles come to the same up to
handles. -/
theorem advance_renumbered (hR : Renumbering R) (htable : table.Renumbered R table')
    (budget : Option Nat) (fuel : Nat) (h : s.Renumbered R s') :
    (advance ⟨table, budget⟩ fuel s).Renumbered R (advance ⟨table', budget⟩ fuel s') := by
  induction fuel generalizing s s' with
  | zero => exact .next h
  | succ fuel ih =>
    have hturn := turn_renumbered hR htable budget h
    rw [advance_succ, advance_succ]
    generalize turn ⟨table, budget⟩ s = t at hturn ⊢
    generalize turn ⟨table', budget⟩ s' = t' at hturn ⊢
    cases hturn with
    | next hnext => exact ih hnext
    | halted hvw hlast => exact .halted hvw hlast
    | failed he hlast => exact .failed he hlast

/-- Machines for tables and settings that are the same up to handles start in such states, or cannot
be started for the same reason. -/
theorem load_renumbered (hR : Renumbering R) (htable : table.Renumbered R table')
    {settings settings' : Settings} (h : settings.Renumbered R settings') :
    Alike R (fun m m' => m.1 = ⟨table, settings.budget⟩ ∧ m'.1 = ⟨table', settings.budget⟩ ∧
      m.2.Renumbered R m'.2) (load table settings) (load table' settings') := by
  have hentry := htable.get?_rel .entry
  rw [load, load, Table.entry?, Table.entry?]
  generalize table.get? .entry = entry at hentry
  generalize table'.get? .entry = entry' at hentry
  cases hentry with
  | none => exact .error (.same rfl)
  | @some entry entry' hentry =>
    simp only [hentry.items.isEmpty_eq]
    split
    · exact .error (.same rfl)
    · refine .ok ⟨rfl, congrArg _ h.budget.symm, ?_⟩
      exact {
        scopes := .cons ⟨hentry.executionOrder, rfl⟩ .nil
        operands := .cons (.marker _) .nil
        envs := h.environments hR
        current := rfl
        steps := rfl
        shown := .nil }

end Machine

end EagerLambda
