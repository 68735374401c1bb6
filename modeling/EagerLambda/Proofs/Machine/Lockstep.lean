import EagerLambda.Proofs.Control.Pairing
import EagerLambda.Proofs.Machine.Follows

/-!
# Machines in lockstep

Two programs that are the same up to the names they bind take the same turns. Their states have the
same stacks, up to names and functions, and every environment knows which names correspond in it, so
a lookup finds related values on both sides.

## Main definitions

- `Machine.Twins` — two programs that are executed side by side
- `Machine.InStep` — two states of such programs
- `Machine.TurnInStep` — two turns that come to the same

## Main statements

- `Machine.turn_inStep` — states in step take turns that come to the same
- `Machine.advance_inStep` — so do runs of any number of turns
-/

namespace EagerLambda

open Control

namespace Machine

/-- Two programs that are executed side by side, and which names may correspond in them. -/
structure Twins where
  naming : Naming
  table : Table
  table' : Table

/-- The errors are the same, up to the name that is not bound. -/
inductive ErrorPaired (naming : Naming) : Error → Error → Prop
  | same (error : Error) : ErrorPaired naming error error
  | unbound {x y : Name} : naming.free x y →
      ErrorPaired naming (.unboundVariable x) (.unboundVariable y)

namespace Twins

variable (p : Twins)

/-- The functions have the same body and were made in the same environment. The names in scope in
each environment are given by `statics`. -/
structure Functions (statics : List Pairing) (c d : Closure) : Prop where
  body : c.body = d.body
  env : c.env = d.env
  params : List.Forall₂ p.naming.bound c.params d.params
  scope : ∃ pairing, statics[c.env.index]? = some pairing ∧
    BodyPaired p.naming p.table p.table' (pairing.bind c.params d.params) c.body

/-- The values are the same up to their functions. -/
abbrev Values (statics : List Pairing) : Value → Value → Prop := Value.Related (p.Functions statics)

/-- The operands are markers of the same environment, or values that are the same up to their
functions. -/
inductive Operands (statics : List Pairing) : Operand → Operand → Prop
  | value {v w : Value} : p.Values statics v w → Operands statics (.value v) (.value w)
  | marker (env : EnvId) : Operands statics (.marker env) (.marker env)

/-- The open scopes belong to the same environment, and what is left in them is the same up to
names. -/
structure Scopes (statics : List Pairing) (c d : Scope) : Prop where
  env : c.env = d.env
  todo : ∃ pairing, statics[c.env.index]? = some pairing ∧
    List.Forall₂ (ItemPaired p.naming p.table p.table' pairing) c.todo d.todo

end Twins

variable {p : Twins} {statics : List Pairing} {s s' : State}

/-- The states are the same up to names and functions. Names are looked up in the innermost open
scope. -/
structure InStep (p : Twins) (statics : List Pairing) (s s' : State) : Prop where
  scopes : List.Forall₂ (p.Scopes statics) s.scopes s'.scopes
  operands : List.Forall₂ (p.Operands statics) s.operands s'.operands
  envs : Environments.Paired p.naming (p.Functions statics) statics s.envs s'.envs
  current : s.current = s.scopes.head?.map Scope.env
  current' : s'.current = s.current
  steps : s'.steps = s.steps
  shown : List.Forall₂ (p.Values statics) s.shown s'.shown

/-- What is observed of two states is the same up to functions. -/
structure SameOutput (p : Twins) (statics : List Pairing) (s s' : State) : Prop where
  envs : s'.envs.size = s.envs.size
  steps : s'.steps = s.steps
  shown : List.Forall₂ (p.Values statics) s.shown s'.shown

/-- The turns come to the same, up to names and functions. -/
inductive TurnInStep (p : Twins) : Turn → Turn → Prop
  | next {statics : List Pairing} {s s' : State} : InStep p statics s s' →
      TurnInStep p (.next s) (.next s')
  | halted {statics : List Pairing} {v w : Value} {s s' : State} : p.Values statics v w →
      SameOutput p statics s s' → TurnInStep p (.halted v s) (.halted w s')
  | failed {statics : List Pairing} {error error' : Error} {s s' : State} :
      ErrorPaired p.naming error error' → SameOutput p statics s s' →
      TurnInStep p (.failed error s) (.failed error' s')

/-- In the current environment of the state these names are in scope. -/
def Under (statics : List Pairing) (pairing : Pairing) (s : State) : Prop :=
  ∀ env, s.current = some env → statics[env.index]? = some pairing

theorem under_of_current {env : EnvId} {pairing : Pairing} (hcurrent : s.current = some env)
    (hscope : statics[env.index]? = some pairing) : Under statics pairing s := by
  intro env' henv
  rw [hcurrent] at henv
  cases henv
  exact hscope

/-- What is taken off the two control stacks: items that are the same up to the names in scope, or
the closing of a scope of the same environment. -/
inductive TasksInStep (p : Twins) (statics : List Pairing) (s s' : State) :
    Option (Task × State) → Option (Task × State) → Prop
  | none : TasksInStep p statics s s' none none
  | leave {env : EnvId} {outer outer' : List Scope} : s.scopes = ⟨[], env⟩ :: outer →
      s'.scopes = ⟨[], env⟩ :: outer' →
      TasksInStep p statics s s' (some (.leave env, { s with scopes := outer }))
        (some (.leave env, { s' with scopes := outer' }))
  | item {pairing : Pairing} {item item' : Item} {left left' : List Scope} :
      Under statics pairing s → s.current ≠ .none →
      ItemPaired p.naming p.table p.table' pairing item item' →
      InStep p statics { s with scopes := left } { s' with scopes := left' } →
      TasksInStep p statics s s' (some (.item item, { s with scopes := left }))
        (some (.item item', { s' with scopes := left' }))

theorem Twins.Functions.append {c d : Closure} (h : p.Functions statics c d)
    (more : List Pairing) : p.Functions (statics ++ more) c d :=
  { h with
    scope := by
      obtain ⟨pairing, hscope, hbody⟩ := h.scope
      exact ⟨pairing, getElem?_append_of_eq_some hscope more, hbody⟩ }

theorem Twins.Operands.append {o o' : Operand} (h : p.Operands statics o o')
    (more : List Pairing) : p.Operands (statics ++ more) o o' := by
  cases h with
  | value hvw => exact .value (hvw.mono fun _ _ hcd => hcd.append more)
  | marker env => exact .marker env

theorem Twins.Scopes.append {c d : Scope} (h : p.Scopes statics c d) (more : List Pairing) :
    p.Scopes (statics ++ more) c d :=
  { h with
    todo := by
      obtain ⟨pairing, hscope, hitems⟩ := h.todo
      exact ⟨pairing, getElem?_append_of_eq_some hscope more, hitems⟩ }

theorem tupledBindings_paired {R : Closure → Closure → Prop} {xs ys : List Name}
    (hlength : xs.length = ys.length) {v w : Value} (hvw : Value.Related R v w) :
    Agree (fun bs cs => ValuesRelated R bs cs ∧ pairNames bs cs = xs.zip ys)
      (Computation.tupledBindings xs v) (Computation.tupledBindings ys w) := by
  cases hvw with
  | tuple hvs =>
    rw [Computation.tupledBindings, Computation.tupledBindings, hvs.length_eq, hlength]
    split
    case isTrue hcount =>
      exact .ok (zip_paired hvs (by rw [hvs.length_eq, hlength, hcount]) hcount)
    case isFalse => exact .error _ trivial
  | _ =>
    simp only [Computation.tupledBindings, hlength]
    exact .error _ trivial

/-- Parameters in the same places are bound to the parts of related arguments. -/
theorem parameterBindings_paired {R : Closure → Closure → Prop} {xs ys : List Name}
    (hlength : xs.length = ys.length) {v w : Value} (hvw : Value.Related R v w) :
    Agree (fun bs cs => ValuesRelated R bs cs ∧ pairNames bs cs = xs.zip ys)
      (Computation.parameterBindings xs v) (Computation.parameterBindings ys w) := by
  match xs, ys, hlength with
  | [], [], hlength => exact tupledBindings_paired hlength hvw
  | [x], [y], _ => exact .ok ⟨.cons hvw .nil, rfl⟩
  | _ :: _ :: _, _ :: _ :: _, hlength => exact tupledBindings_paired hlength hvw

namespace InStep

theorem sameOutput (h : InStep p statics s s') : SameOutput p statics s s' :=
  ⟨h.envs.size_eq.symm, h.steps, h.shown⟩

theorem fail (h : InStep p statics s s') (error : Error) :
    TurnInStep p (.failed error s) (.failed error s') :=
  .failed (.same error) h.sameOutput

/-- Replacing the operands by others that are the same up to functions. -/
theorem withOperands (h : InStep p statics s s') {ops ops' : List Operand}
    (hops : List.Forall₂ (p.Operands statics) ops ops') :
    InStep p statics { s with operands := ops } { s' with operands := ops' } :=
  { h with operands := hops }

theorem push (h : InStep p statics s s') {v w : Value} (hvw : p.Values statics v w) :
    InStep p statics (s.push v) (s'.push w) :=
  h.withOperands (.cons (.value hvw) h.operands)

theorem pushResult (h : InStep p statics s s') {r r' : Except Error Value}
    (hr : Agree (p.Values statics) r r') : TurnInStep p (s.pushResult r) (s'.pushResult r') := by
  cases hr with
  | ok hvw => exact .next (h.push hvw)
  | error error _ => exact h.fail error

/-- Taking off the topmost operand. The current environment stays the same. -/
theorem withValue (h : InStep p statics s s') {next next' : Value → State → Turn}
    (hnext : ∀ v w t t', p.Values statics v w → InStep p statics t t' → t.current = s.current →
      TurnInStep p (next v t) (next' w t')) :
    TurnInStep p (s.withValue next) (s'.withValue next') := by
  have hops := h.operands
  rw [State.withValue, State.withValue]
  generalize s.operands = ops at hops
  generalize s'.operands = ops' at hops
  cases hops with
  | nil => exact h.fail _
  | cons htop hrest =>
    cases htop with
    | value hvw => exact hnext _ _ _ _ hvw (h.withOperands hrest) rfl
    | marker env => exact (h.withOperands hrest).fail _

theorem withValues (h : InStep p statics s s') (count : Nat)
    {next next' : List Value → State → Turn}
    (hnext : ∀ vs ws t t', List.Forall₂ (p.Values statics) vs ws → InStep p statics t t' →
      TurnInStep p (next vs t) (next' ws t')) :
    TurnInStep p (s.withValues count next) (s'.withValues count next') := by
  induction count generalizing s s' next next' with
  | zero => exact hnext [] [] s s' .nil h
  | succ count ih =>
    refine h.withValue fun v w t t' hvw ht _ => ih ht fun vs ws u u' hvs hu => ?_
    exact hnext (v :: vs) (w :: ws) u u' (.cons hvw hvs) hu

/-- Scheduling items that are the same up to the names in scope. -/
theorem schedule (h : InStep p statics s s') {items items' : List Item}
    (hitems : ∀ pairing, Under statics pairing s →
      List.Forall₂ (ItemPaired p.naming p.table p.table' pairing) items items') :
    InStep p statics (s.schedule items) (s'.schedule items') := by
  have hscopes := h.scopes
  have hcurrent := h.current
  rw [State.schedule, State.schedule]
  generalize hs : s.scopes = cs at hscopes hcurrent
  generalize hs' : s'.scopes = ds at hscopes
  cases hscopes with
  | nil => exact h
  | @cons c d outer outer' hcd houter =>
    obtain ⟨todo, env⟩ := c
    obtain ⟨todo', env'⟩ := d
    obtain ⟨rfl, pairing, hscope, htodo⟩ := hcd
    have hall := List.rel_append (hitems pairing (under_of_current hcurrent hscope)) htodo
    exact { h with
      scopes := .cons ⟨rfl, pairing, hscope, hall⟩ houter
      current := hcurrent }

theorem splice (h : InStep p statics s s') {pairing : Pairing} {id : ControlId}
    (hunder : Under statics pairing s) (hcurrent : s.current ≠ none)
    (hbody : BodyPaired p.naming p.table p.table' pairing id) :
    TurnInStep p (s.splice p.table id) (s'.splice p.table' id) := by
  obtain ⟨items, items', hget, hget', hitems⟩ := hbody.exists_items
  rw [State.splice, State.splice, hget, hget']
  refine .next (h.schedule fun pairing' hunder' => ?_)
  obtain ⟨env, henv⟩ := Option.ne_none_iff_exists'.1 hcurrent
  obtain rfl : pairing = pairing' :=
    Option.some.inj ((hunder env henv).symm.trans (hunder' env henv))
  exact List.rel_reverse hitems

/-- Opening a scope for functions that are the same up to names. -/
theorem enter (h : InStep p statics s s') {c d : Closure} {bs cs : List Binding}
    (hcd : p.Functions statics c d) (hvalues : ValuesRelated (p.Functions statics) bs cs)
    (hnames : pairNames bs cs = c.params.zip d.params) :
    TurnInStep p (s.enter p.table c bs) (s'.enter p.table' d cs) := by
  obtain ⟨pairing, hscope, hbody⟩ := hcd.scope
  rw [State.enter, State.enter, ← hcd.env, ← hcd.body,
    ← Environments.openFault?_of_size h.envs.size_eq, ← Environments.nextId_of_size h.envs.size_eq]
  cases s.envs.openFault? c.env with
  | some fault => exact h.fail _
  | none =>
    -- The new environment gets the next place in `statics`, and the old ones keep theirs.
    let inner := pairing.bind c.params d.params
    have hmono : ∀ c d, p.Functions statics c d → p.Functions (statics ++ [inner]) c d :=
      fun _ _ hcd => hcd.append [inner]
    have hnext : s.envs.nextId.index = statics.length := h.envs.size
    have hinner : (statics ++ [inner])[s.envs.nextId.index]? = some inner := by simp [hnext]
    have henvs := h.envs.push hmono hscope (hvalues.imp fun _ _ hbc => hbc.mono hmono)
    rw [hnames] at henvs
    have hunder : Under (statics ++ [inner]) inner (State.mk (⟨[], s.envs.nextId⟩ :: s.scopes)
        (.marker s.envs.nextId :: s.operands) (s.envs.push c.env bs) (some s.envs.nextId) s.steps
        s.shown) := under_of_current rfl hinner
    refine splice ?_ hunder nofun hbody
    exact {
      scopes := .cons ⟨rfl, inner, hinner, .nil⟩ (h.scopes.imp fun _ _ hc => hc.append [inner])
      operands := .cons (.marker _) (h.operands.imp fun _ _ ho => ho.append [inner])
      envs := henvs
      current := rfl
      current' := rfl
      steps := h.steps
      shown := h.shown.imp fun _ _ hvw => hvw.mono hmono }

/-- Closing a scope that was taken off the control stack. -/
theorem leave {env : EnvId} {outer outer' : List Scope} (h : InStep p statics s s')
    (hs : s.scopes = ⟨[], env⟩ :: outer) (hs' : s'.scopes = ⟨[], env⟩ :: outer') :
    TurnInStep p (({ s with scopes := outer } : State).leave env)
      (({ s' with scopes := outer' } : State).leave env) := by
  have hscopes := h.scopes
  rw [hs, hs'] at hscopes
  obtain _ | ⟨-, houter⟩ := hscopes
  have hoperands := h.operands
  -- The scope is gone whether or not its marker is found, so the states need not be in step.
  have hfail : ∀ error ops ops', TurnInStep p
      (.failed error { s with scopes := outer, operands := ops })
      (.failed error { s' with scopes := outer', operands := ops' }) :=
    fun error _ _ => .failed (.same error)
      ⟨h.sameOutput.envs, h.sameOutput.steps, h.sameOutput.shown⟩
  rw [State.leave, State.leave, State.withValue, State.withValue]
  simp only
  generalize ho : s.operands = ops at hoperands
  generalize ho' : s'.operands = ops' at hoperands
  cases hoperands with
  | nil => exact hfail _ [] []
  | cons htop hrest =>
    cases htop with
    | marker env => exact hfail _ _ _
    | value hvw =>
      cases hrest with
      | nil => exact hfail _ _ _
      | cons hnext hrest =>
        cases hnext with
        | value _ => exact hfail _ _ _
        | marker found =>
          simp only
          by_cases hfound : found = env
          · rw [if_pos hfound, if_pos hfound]
            exact .next {
              scopes := houter
              operands := .cons (.value hvw) hrest
              envs := h.envs
              current := rfl
              current' := by cases houter with
                | nil => rfl
                | cons hcd _ => simp [hcd.env]
              steps := h.steps
              shown := h.shown }
          · rw [if_neg hfound, if_neg hfound]
            exact hfail _ _ _

/-- Loading atoms that stand for each other in the current environment. -/
theorem load (h : InStep p statics s s') {pairing : Pairing} {a a' : Atom}
    (hunder : Under statics pairing s)
    (hitem : ItemPaired p.naming p.table p.table' pairing (.load a) (.load a')) :
    TurnInStep p (s.load a) (s'.load a') := by
  cases hitem with
  | @identifier _ x y hxy =>
    rw [State.load, State.load, State.withCurrent, State.withCurrent, h.current']
    cases hcurrent : s.current with
    | none => exact h.fail _
    | some env =>
      have hfound := h.envs.lookup_found (hunder env hcurrent) hxy
      simp only [Environments.resolve]
      generalize s.envs.lookup env x = v at hfound ⊢
      generalize s'.envs.lookup env y = w at hfound ⊢
      cases hfound with
      | value hvw => exact h.pushResult (.ok hvw)
      | unbound hfree => exact .failed (.unbound hfree) h.sameOutput
  | constant ha =>
    cases a with
    | identifier x => exact absurd rfl (ha x)
    | integer n => exact .next (h.push (.integer n))
    | string text => exact .next (h.push (.string text))
    | truth b => exact .next (h.push (.truth b))
    | nil => exact .next (h.push Value.related_nil)
    | dummy => exact .next (h.push .dummy)

theorem makeClosure (h : InStep p statics s s') {pairing : Pairing} {body : ControlId}
    {xs ys : List Name} (hunder : Under statics pairing s)
    (hbound : List.Forall₂ p.naming.bound xs ys)
    (hbody : BodyPaired p.naming p.table p.table' (pairing.bind xs ys) body) :
    TurnInStep p (s.makeClosure body xs) (s'.makeClosure body ys) := by
  rw [State.makeClosure, State.makeClosure, State.withCurrent, State.withCurrent, h.current']
  cases hcurrent : s.current with
  | none => exact h.fail _
  | some env =>
    exact .next (h.push (.closure ⟨rfl, rfl, hbound, pairing, hunder env hcurrent, hbody⟩))

theorem select (h : InStep p statics s s') {vs ws : List Value}
    (hvs : List.Forall₂ (p.Values statics) vs ws) :
    TurnInStep p (s.select vs) (s'.select ws) := by
  refine h.withValue fun v w t t' hvw ht _ => ?_
  cases hvw with
  | integer i =>
    have hrel := State.component?_rel hvs i
    rw [hvs.length_eq]
    simp only
    generalize State.component? vs i = c at hrel ⊢
    generalize State.component? ws i = d at hrel ⊢
    cases hrel with
    | none => exact ht.fail _
    | some hcd => exact .next (ht.push hcd)
  | _ => exact ht.fail _

theorem makeRecursive (h : InStep p statics s s') :
    TurnInStep p s.makeRecursive s'.makeRecursive := by
  refine h.withValue fun v w t t' hvw ht _ => ?_
  cases hvw with
  | closure hcd => exact .next (ht.push (.eta hcd))
  | _ => exact ht.fail _

theorem unfold (h : InStep p statics s s') {c d : Closure} (hcd : p.Functions statics c d) :
    TurnInStep p (s.unfold c) (s'.unfold d) :=
  .next (((h.push (.eta hcd)).push (.closure hcd)).schedule
    fun _ _ => .cons .gamma (.cons .gamma .nil))

theorem call (h : InStep p statics s s') (builtin : Builtin) {vs ws : List Value}
    (hvs : List.Forall₂ (p.Values statics) vs ws) :
    TurnInStep p (s.call builtin vs) (s'.call builtin ws) := by
  refine h.withValue fun v w t t' hvw ht _ => ?_
  have hshown : InStep p statics { t with shown := builtin.shown v ++ t.shown }
      { t' with shown := builtin.shown w ++ t'.shown } :=
    { ht with shown := List.rel_append (builtin.shown_forall₂ hvw) ht.shown }
  exact hshown.pushResult (builtin.apply_agree hvs hvw)

/-- Applying functions that are the same up to names to the operand beneath. -/
theorem applyFunction (h : InStep p statics s s') {c d : Closure} {ops ops' : List Operand}
    (hs : s.operands = .value (.closure c) :: ops)
    (hs' : s'.operands = .value (.closure d) :: ops') (hcd : p.Functions statics c d)
    (hops : List.Forall₂ (p.Operands statics) ops ops') :
    TurnInStep p (s.apply p.table) (s'.apply p.table') := by
  rw [apply_closure p.table hs, apply_closure p.table' hs']
  refine (h.withOperands hops).withValue fun v w t t' hvw ht _ => ?_
  have hagree := parameterBindings_paired hcd.params.length_eq hvw
  generalize Computation.parameterBindings c.params v = r at hagree ⊢
  generalize Computation.parameterBindings d.params w = r' at hagree ⊢
  cases hagree with
  | error error _ => exact ht.fail error
  | ok hbindings => exact ht.enter hcd hbindings.1 hbindings.2

theorem apply (h : InStep p statics s s') :
    TurnInStep p (s.apply p.table) (s'.apply p.table') := by
  have hoperands := h.operands
  generalize hs : s.operands = ops at hoperands
  generalize hs' : s'.operands = ops' at hoperands
  cases hoperands with
  | nil =>
    simp only [State.apply, State.withValue, hs, hs']
    exact h.fail _
  | cons htop hrest =>
    have hrest' := h.withOperands hrest
    cases htop with
    | marker env =>
      simp only [State.apply, State.withValue, hs, hs']
      exact hrest'.fail _
    | value hvw =>
      have happly : ∀ c d, p.Functions statics c d → s.operands = .value (.closure c) :: _ →
          s'.operands = .value (.closure d) :: _ → TurnInStep p (s.apply p.table)
            (s'.apply p.table') := fun _ _ hcd hc hd => h.applyFunction hc hd hcd hrest
      simp only [State.apply, State.withValue, hs, hs'] at happly ⊢
      cases hvw with
      | closure hcd => exact happly _ _ hcd rfl rfl
      | tuple hvs =>
        cases hvs with
        | nil => exact hrest'.fail _
        | cons hfirst hothers => exact hrest'.select (.cons hfirst hothers)
      | eta hcd => exact hrest'.unfold hcd
      | fixpoint => exact hrest'.makeRecursive
      | builtin b => exact hrest'.call b .nil
      | partialApp b hvs => exact hrest'.call b hvs
      | _ => exact hrest'.fail _

theorem binary (h : InStep p statics s s') (op : BinaryOp) :
    TurnInStep p (s.binary op) (s'.binary op) := by
  refine h.withValue fun v w t t' hvw ht _ => ht.withValue fun v' w' u u' hvw' hu _ => ?_
  exact hu.pushResult (op.apply_agree hvw hvw')

theorem unary (h : InStep p statics s s') (op : UnaryOp) :
    TurnInStep p (s.unary op) (s'.unary op) := by
  have hoperand : TurnInStep p (s.withValue fun v t => t.pushResult (op.apply v))
      (s'.withValue fun v t => t.pushResult (op.apply v)) :=
    h.withValue fun _ _ _ _ hvw ht _ => ht.pushResult (op.apply_agree hvw)
  cases op with
  | print => exact h.call .print .nil
  | not => exact hoperand
  | neg => exact hoperand

theorem tuple (h : InStep p statics s s') (count : Nat) :
    TurnInStep p (s.tuple count) (s'.tuple count) :=
  h.withValues count fun _ _ _ _ hvs ht => .next (ht.push (.tuple hvs))

/-- Taking the top entry off the control stack. -/
theorem takeTask (h : InStep p statics s s') :
    TasksInStep p statics s s' s.takeTask? s'.takeTask? := by
  have hscopes := h.scopes
  have hcurrent := h.current
  rw [State.takeTask?, State.takeTask?]
  generalize hs : s.scopes = cs at hscopes hcurrent
  generalize hs' : s'.scopes = ds at hscopes
  cases hscopes with
  | nil => exact .none
  | @cons c d outer outer' hcd houter =>
    obtain ⟨todo, env⟩ := c
    obtain ⟨todo', env'⟩ := d
    obtain ⟨rfl, pairing, hscope, htodo⟩ := hcd
    cases htodo with
    | nil => exact .leave hs hs'
    | cons hitem hrest =>
      exact .item (under_of_current hcurrent hscope) (by simp [hcurrent]) hitem
        { h with scopes := .cons ⟨rfl, pairing, hscope, hrest⟩ houter, current := hcurrent }

/-- Executing the arm that a truth value chooses from the next item of the scope. -/
theorem branch (h : InStep p statics s s') :
    TurnInStep p (s.branch p.table) (s'.branch p.table') := by
  refine h.withValue fun v w t t' hvw ht _ => ?_
  cases hvw with
  | truth b =>
    -- The arms are those of the next entry of the control stack, which is taken off with them.
    have htask := ht.takeTask
    simp only
    generalize t.takeTask? = taken at htask ⊢
    generalize t'.takeTask? = taken' at htask ⊢
    cases htask with
    | none => exact ht.fail _
    | leave hs hs' =>
      have hsame := ht.sameOutput
      exact .failed (.same _) ⟨hsame.envs, hsame.steps, hsame.shown⟩
    | item hunder hcurrent hitem hleft =>
      cases hitem with
      | branch hthen helse =>
        cases b with
        | true => exact hleft.splice hunder hcurrent hthen
        | false => exact hleft.splice hunder hcurrent helse
      | _ => exact hleft.fail _
  | _ => exact ht.fail _

/-- Applying the rules for items that are the same up to the names in scope. -/
theorem perform (h : InStep p statics s s') {pairing : Pairing} {item item' : Item}
    (hunder : Under statics pairing s)
    (hitem : ItemPaired p.naming p.table p.table' pairing item item') :
    TurnInStep p (Machine.perform p.table (.item item) s)
      (Machine.perform p.table' (.item item') s') := by
  cases hitem with
  | identifier hxy => exact h.load hunder (.identifier hxy)
  | constant ha => exact h.load hunder (.constant ha)
  | gamma => exact h.apply
  | binary op => exact h.binary op
  | unary op => exact h.unary op
  | tau count => exact h.tuple count
  | beta => exact h.branch
  | lambda hbound hbody => exact h.makeClosure hunder hbound hbody
  | branch _ _ => exact h.fail _

theorem charge (h : InStep p statics s s') : InStep p statics s.charge s'.charge :=
  { h with steps := by rw [State.charge, State.charge, h.steps] }

/-- Halting with the only operand. -/
theorem finish (h : InStep p statics s s') :
    TurnInStep p (Machine.finish s) (Machine.finish s') := by
  have hsame := h.sameOutput
  have hoperands := h.operands
  have hlength := hoperands.length_eq
  simp only [Machine.finish, State.withValue]
  generalize s.operands = ops at hoperands hlength
  generalize s'.operands = ops' at hoperands hlength
  cases hoperands with
  | nil => exact h.fail _
  | cons htop hrest =>
    cases hrest with
    | nil =>
      cases htop with
      | value hvw => exact .halted hvw ⟨hsame.envs, hsame.steps, hsame.shown⟩
      | marker env => exact .failed (.same _) ⟨hsame.envs, hsame.steps, hsame.shown⟩
    | cons _ _ =>
      simp only [hlength]
      exact h.fail _

end InStep

/-- States that are in step take turns that come to the same. -/
theorem turn_inStep (budget : Option Nat) (h : InStep p statics s s') :
    TurnInStep p (turn ⟨p.table, budget⟩ s) (turn ⟨p.table', budget⟩ s') := by
  have htask := h.takeTask
  rw [turn, turn]
  generalize s.takeTask? = taken at htask ⊢
  generalize s'.takeTask? = taken' at htask ⊢
  have hoverrun : ∀ steps, overrun? ⟨p.table', budget⟩ steps = overrun? ⟨p.table, budget⟩ steps :=
    fun _ => rfl
  cases htask with
  | none => exact h.finish
  | @leave env outer outer' hs hs' =>
    have hsame := h.charge.sameOutput
    have hsteps : ({ s' with scopes := outer' } : State).charge.steps =
        ({ s with scopes := outer } : State).charge.steps := hsame.steps
    simp only [hoverrun, hsteps]
    split
    · exact .failed (.same _) ⟨hsame.envs, hsame.steps, hsame.shown⟩
    · exact h.charge.leave hs hs'
  | item hunder _ hitem hleft =>
    have hcharged := hleft.charge
    simp only [hoverrun, hcharged.steps]
    split
    · exact hcharged.fail _
    · exact hcharged.perform hunder hitem

/-- Runs of any number of turns from states that are in step come to the same. -/
theorem advance_inStep (budget : Option Nat) (fuel : Nat) (h : InStep p statics s s') :
    TurnInStep p (advance ⟨p.table, budget⟩ fuel s) (advance ⟨p.table', budget⟩ fuel s') := by
  induction fuel generalizing statics s s' with
  | zero => exact .next h
  | succ fuel ih =>
    have hturn := turn_inStep budget h
    rw [advance_succ, advance_succ]
    generalize turn ⟨p.table, budget⟩ s = t at hturn ⊢
    generalize turn ⟨p.table', budget⟩ s' = t' at hturn ⊢
    cases hturn with
    | next hnext => exact ih hnext
    | halted hvw hsame => exact .halted hvw hsame
    | failed herror hsame => exact .failed herror hsame

end Machine

end EagerLambda
