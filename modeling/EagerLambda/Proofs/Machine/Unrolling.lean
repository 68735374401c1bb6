import EagerLambda.Proofs.Control.Unrolling
import EagerLambda.Proofs.Machine.Run

/-!
# Machines that build tuples step by step

A machine that collects a tuple at once and one that builds it step by step agree on everything but
the number of steps. Where one takes the components off the operand stack in one turn, the other
loads `nil` and takes them off one by one, from the first to the last; either finds the same operand
missing. All other turns are the same, since a rule looks at the items that are left only to choose
a branch.

## Main definitions

- `Machine.State.Unrolled`, `Machine.Turn.Unrolled` — the same, but for tuples built step by step

## Main statements

- `Machine.build_tuple` — the turns that build a tuple
- `Machine.turn_unrolled` — one turn, and the turns of the other machine that match it
- `Machine.advance_unrolled` — a run of any number of turns
-/

namespace EagerLambda

open Control

namespace Machine

/-- The scopes belong to the same environment and have the same items left, but that some tuples are
built step by step in the second. -/
structure Scope.Unrolled (c d : Scope) : Prop where
  todo : Control.Unrolled c.todo d.todo
  env : d.env = c.env

/-- The states are the same up to the items that are left and the number of steps. -/
structure State.Unrolled (s s' : State) : Prop where
  scopes : List.Forall₂ Scope.Unrolled s.scopes s'.scopes
  operands : s'.operands = s.operands
  envs : s'.envs = s.envs
  current : s'.current = s.current
  shown : s'.shown = s.shown

/-- The states have the same environments, and the same was shown in them. -/
structure State.SameTrace (s s' : State) : Prop where
  envs : s'.envs = s.envs
  shown : s'.shown = s.shown

/-- The turns come to the same up to the number of steps. -/
inductive Turn.Unrolled : Turn → Turn → Prop
  | next {s s' : State} : s.Unrolled s' → Unrolled (.next s) (.next s')
  | halted (v : Value) {s s' : State} : s.SameTrace s' → Unrolled (.halted v s) (.halted v s')
  | failed (e : Error) {s s' : State} : s.SameTrace s' → Unrolled (.failed e s) (.failed e s')

variable {s s' : State} {table table' : Table}

/-- The innermost scopes belong to the same environment. -/
theorem unrolled_innermost {cs ds : List Scope} (h : List.Forall₂ Scope.Unrolled cs ds) :
    ds.head?.map Scope.env = cs.head?.map Scope.env := by
  cases h with
  | nil => rfl
  | cons hcd _ => exact congrArg some hcd.env

-- ════════════════════════════════════════════════════════════════════════
-- One rule after the other
-- ════════════════════════════════════════════════════════════════════════

namespace State.Unrolled

theorem sameTrace (h : s.Unrolled s') : s.SameTrace s' := ⟨h.envs, h.shown⟩

theorem fail (h : s.Unrolled s') (error : Error) :
    Turn.Unrolled (.failed error s) (.failed error s') :=
  .failed error h.sameTrace

theorem withOperands (h : s.Unrolled s') (ops : List Operand) :
    ({ s with operands := ops } : State).Unrolled { s' with operands := ops } :=
  { h with operands := rfl }

theorem push (h : s.Unrolled s') (v : Value) : (s.push v).Unrolled (s'.push v) := by
  rw [State.push, State.push, h.operands]
  exact h.withOperands _

theorem pushResult (h : s.Unrolled s') (r : Except Error Value) :
    (s.pushResult r).Unrolled (s'.pushResult r) := by
  cases r with
  | ok v => exact .next (h.push v)
  | error e => exact h.fail e

/-- Taking off the topmost operand. -/
theorem withValue (h : s.Unrolled s') {next next' : Value → State → Turn}
    (hnext : ∀ v t t', t.Unrolled t' → (next v t).Unrolled (next' v t')) :
    (s.withValue next).Unrolled (s'.withValue next') := by
  rw [State.withValue, State.withValue, h.operands]
  split
  · exact h.fail _
  · exact (h.withOperands _).fail _
  · exact hnext _ _ _ (h.withOperands _)

theorem withValues (h : s.Unrolled s') (count : Nat) {next next' : List Value → State → Turn}
    (hnext : ∀ vs t t', t.Unrolled t' → (next vs t).Unrolled (next' vs t')) :
    (s.withValues count next).Unrolled (s'.withValues count next') := by
  induction count generalizing s s' next next' with
  | zero => exact hnext [] s s' h
  | succ count ih =>
    exact h.withValue fun v t t' ht => ih ht fun vs u u' hu => hnext (v :: vs) u u' hu

theorem withCurrent (h : s.Unrolled s') {next next' : EnvId → Turn}
    (hnext : ∀ env, (next env).Unrolled (next' env)) :
    (s.withCurrent next).Unrolled (s'.withCurrent next') := by
  rw [State.withCurrent, State.withCurrent, h.current]
  split
  · exact h.fail _
  · exact hnext _

theorem schedule (h : s.Unrolled s') {items items' : List Item}
    (hitems : Control.Unrolled items items') :
    (s.schedule items).Unrolled (s'.schedule items') := by
  have hscopes := h.scopes
  rw [State.schedule, State.schedule]
  generalize s.scopes = cs at hscopes
  generalize s'.scopes = ds at hscopes
  cases hscopes with
  | nil => exact h
  | @cons c d _ _ hcd houter =>
    obtain ⟨todo, env⟩ := c
    obtain ⟨todo', env'⟩ := d
    exact { h with scopes := .cons ⟨hitems.append hcd.todo, hcd.env⟩ houter }

theorem splice (h : s.Unrolled s') (htable : table.Unrolled table') (id : ControlId) :
    (s.splice table id).Unrolled (s'.splice table' id) := by
  have hget := htable id
  rw [State.splice, State.splice]
  generalize table.get? id = found at hget
  generalize table'.get? id = found' at hget
  cases hget with
  | none => exact h.fail _
  | some hfound => exact .next (h.schedule hfound)

theorem enter (h : s.Unrolled s') (htable : table.Unrolled table') (closure : Closure)
    (bindings : List Binding) :
    (s.enter table closure bindings).Unrolled (s'.enter table' closure bindings) := by
  rw [State.enter, State.enter, h.envs]
  split
  · exact h.fail _
  · refine splice ?_ htable closure.body
    exact {
      scopes := .cons ⟨.nil, rfl⟩ h.scopes
      operands := congrArg (_ :: ·) h.operands
      envs := rfl
      current := rfl
      shown := h.shown }

/-- Closing a scope that was taken off the control stack. -/
theorem leave (h : s.Unrolled s') (env : EnvId) : (s.leave env).Unrolled (s'.leave env) := by
  refine h.withValue fun v t t' ht => ?_
  rw [ht.operands]
  split
  · split
    · exact .next { ht with operands := rfl, current := unrolled_innermost ht.scopes }
    · exact (ht.withOperands _).fail _
  · exact (ht.withOperands _).fail _

theorem load (h : s.Unrolled s') (atom : Atom) : (s.load atom).Unrolled (s'.load atom) := by
  cases atom with
  | identifier x =>
    refine h.withCurrent fun env => ?_
    rw [h.envs]
    exact h.pushResult _
  | _ => exact .next (h.push _)

theorem makeClosure (h : s.Unrolled s') (body : ControlId) (params : List Name) :
    (s.makeClosure body params).Unrolled (s'.makeClosure body params) :=
  h.withCurrent fun _ => .next (h.push _)

theorem applySingle (h : s.Unrolled s') (htable : table.Unrolled table') (closure : Closure)
    (param : Name) :
    (s.applySingle table closure param).Unrolled (s'.applySingle table' closure param) :=
  h.withValue fun _ _ _ ht => ht.enter htable closure _

theorem applyTupled (h : s.Unrolled s') (htable : table.Unrolled table') (closure : Closure) :
    (s.applyTupled table closure).Unrolled (s'.applyTupled table' closure) := by
  refine h.withValue fun v t t' ht => ?_
  cases v with
  | tuple components =>
    simp only
    split
    · exact ht.enter htable closure _
    · exact ht.fail _
  | _ => exact ht.fail _

theorem select (h : s.Unrolled s') (components : List Value) :
    (s.select components).Unrolled (s'.select components) := by
  refine h.withValue fun v t t' ht => ?_
  cases v with
  | integer i =>
    simp only
    split
    · exact .next (ht.push _)
    · exact ht.fail _
  | _ => exact ht.fail _

theorem makeRecursive (h : s.Unrolled s') : s.makeRecursive.Unrolled s'.makeRecursive := by
  refine h.withValue fun v t t' ht => ?_
  cases v with
  | closure c => exact .next (ht.push _)
  | _ => exact ht.fail _

theorem unfold (h : s.Unrolled s') (closure : Closure) :
    (s.unfold closure).Unrolled (s'.unfold closure) :=
  .next (((h.push _).push _).schedule (.refl _))

theorem call (h : s.Unrolled s') (builtin : Builtin) (received : List Value) :
    (s.call builtin received).Unrolled (s'.call builtin received) := by
  refine h.withValue fun v t t' ht => ?_
  have hshown : ({ t with shown := builtin.shown v ++ t.shown } : State).Unrolled
      { t' with shown := builtin.shown v ++ t'.shown } :=
    { ht with shown := congrArg (_ ++ ·) ht.shown }
  exact hshown.pushResult _

theorem apply (h : s.Unrolled s') (htable : table.Unrolled table') :
    (s.apply table).Unrolled (s'.apply table') := by
  refine h.withValue fun v t t' ht => ?_
  cases v with
  | closure c =>
    simp only
    split
    · exact ht.applySingle htable c _
    · exact ht.applyTupled htable c
  | tuple components =>
    cases components with
    | nil => exact ht.fail _
    | cons first rest => exact ht.select _
  | fixpoint => exact ht.makeRecursive
  | eta c => exact ht.unfold c
  | builtin b => exact ht.call b []
  | partialApp b received => exact ht.call b received
  | _ => exact ht.fail _

theorem binary (h : s.Unrolled s') (op : BinaryOp) : (s.binary op).Unrolled (s'.binary op) :=
  h.withValue fun _ _ _ ht => ht.withValue fun _ _ _ hu => hu.pushResult _

theorem unary (h : s.Unrolled s') (op : UnaryOp) : (s.unary op).Unrolled (s'.unary op) := by
  have hoperand : (s.withValue fun v t => t.pushResult (op.apply v)).Unrolled
      (s'.withValue fun v t => t.pushResult (op.apply v)) :=
    h.withValue fun _ _ _ ht => ht.pushResult _
  cases op with
  | print => exact h.call .print []
  | not => exact hoperand
  | neg => exact hoperand

theorem tuple (h : s.Unrolled s') (count : Nat) : (s.tuple count).Unrolled (s'.tuple count) :=
  h.withValues count fun _ _ _ ht => .next (ht.push _)

theorem charge (h : s.Unrolled s') : s.charge.Unrolled s'.charge := { h with }

/-- Halting with the only operand. -/
theorem finish (h : s.Unrolled s') : (Machine.finish s).Unrolled (Machine.finish s') := by
  rw [Machine.finish, Machine.finish, h.operands]
  split
  · exact h.withValue fun v _ _ ht => .halted v ht.sameTrace
  · exact h.fail _

end State.Unrolled

/-- What is taken off the two control stacks: the same entry, or an item that collects a tuple and
the first of those that build it. -/
inductive TasksUnrolled (s' : State) : Option (Task × State) → Option (Task × State) → Prop
  | none : TasksUnrolled s' none none
  | same (task : Task) {t t' : State} : t.Unrolled t' →
      TasksUnrolled s' (some (task, t)) (some (task, t'))
  | tuple (count : Nat) {todo : List Item} {env : EnvId} {outer : List Scope} {t : State} :
      s'.scopes = ⟨.load .nil :: (List.replicate count (.binary .aug) ++ todo), env⟩ :: outer →
      t.Unrolled { s' with scopes := ⟨todo, env⟩ :: outer } →
      TasksUnrolled s' (some (.item (.tau count), t)) (some (.item (.load .nil), { s' with
        scopes := ⟨List.replicate count (.binary .aug) ++ todo, env⟩ :: outer }))

namespace State.Unrolled

/-- Taking the top entry off the control stack. -/
theorem takeTask (h : s.Unrolled s') : TasksUnrolled s' s.takeTask? s'.takeTask? := by
  have hscopes := h.scopes
  rw [State.takeTask?, State.takeTask?]
  generalize s.scopes = cs at hscopes
  generalize hs' : s'.scopes = ds at hscopes
  cases hscopes with
  | nil => exact .none
  | @cons c d _ _ hcd houter =>
    obtain ⟨todo, env⟩ := c
    obtain ⟨todo', env'⟩ := d
    obtain ⟨htodo, rfl⟩ := hcd
    cases htodo with
    | nil => exact .same _ { h with scopes := houter }
    | cons item hrest => exact .same _ { h with scopes := .cons ⟨hrest, rfl⟩ houter }
    | tuple count hrest => exact .tuple count hs' { h with scopes := .cons ⟨hrest, rfl⟩ houter }

/-- Executing the arm that a truth value chooses from the next item of the scope. -/
theorem branch (h : s.Unrolled s') (htable : table.Unrolled table') :
    (s.branch table).Unrolled (s'.branch table') := by
  refine h.withValue fun v t t' ht => ?_
  cases v with
  | truth b =>
    have htasks := ht.takeTask
    simp only
    generalize t.takeTask? = taken at htasks
    generalize t'.takeTask? = taken' at htasks
    cases htasks with
    | none => exact ht.fail _
    -- A tuple stands beneath the `beta` in both programs, and neither finds a branch to take.
    | tuple count hs' hleft => exact .failed _ ⟨hleft.envs, hleft.shown⟩
    | same task hleft =>
      cases task with
      | leave env => exact hleft.fail _
      | item item =>
        cases item with
        | branch thenId elseId => exact hleft.splice htable _
        | _ => exact hleft.fail _
  | _ => exact ht.fail _

end State.Unrolled

-- ════════════════════════════════════════════════════════════════════════
-- The turns that build a tuple
-- ════════════════════════════════════════════════════════════════════════

/-- Appending operands to a tuple, one in each turn, comes to the same as collecting them all. -/
theorem append_operands (table' : Table) {todo : List Item} {env : EnvId} {outer : List Scope}
    (count : Nat) (components : List Value) (h : s.Unrolled s')
    (hs' : s'.scopes = ⟨todo, env⟩ :: outer) :
    Turn.Unrolled (s.withValues count fun vs t => .next (t.push (.tuple (components ++ vs))))
      (advance ⟨table', none⟩ count { s' with
        scopes := ⟨List.replicate count (.binary .aug) ++ todo, env⟩ :: outer
        operands := .value (.tuple components) :: s'.operands }) := by
  induction count generalizing s s' components with
  | zero =>
    have hscopes := h.scopes
    rw [hs'] at hscopes
    rw [State.withValues, List.append_nil]
    exact .next {
      scopes := hscopes
      operands := congrArg (_ :: ·) h.operands
      envs := h.envs
      current := h.current
      shown := h.shown }
  | succ count ih =>
    rw [advance_succ, List.replicate_succ, List.cons_append, turn_of_item rfl]
    let left : State := State.charge { s' with
      scopes := ⟨List.replicate count (.binary .aug) ++ todo, env⟩ :: outer }
    change Turn.Unrolled _ (resume _ count (left.withValue fun v t =>
      t.pushResult (BinaryOp.aug.apply (.tuple components) v)))
    -- The left operand is the tuple made so far, so it is the right one that may be missing.
    have hoperands : left.operands = s.operands := h.operands
    rw [State.withValues, State.withValue, State.withValue, hoperands]
    split
    · exact .failed _ ⟨h.envs, h.shown⟩
    · exact .failed _ ⟨h.envs, h.shown⟩
    · next v rest hs =>
      have hrest : State.Unrolled { s with operands := rest } { s'.charge with operands := rest } :=
        { h with operands := rfl }
      have happended := ih (components ++ [v]) hrest hs'
      simp only [List.append_assoc, List.cons_append, List.nil_append] at happended
      exact happended

/-- Loading `nil` and appending the operands to it comes to the same as collecting them. -/
theorem build_tuple {todo : List Item} {env : EnvId} {outer : List Scope} (count : Nat)
    (h : s.Unrolled { s' with scopes := ⟨todo, env⟩ :: outer })
    (hs' : s'.scopes =
      ⟨.load .nil :: (List.replicate count (.binary .aug) ++ todo), env⟩ :: outer) :
    (s.tuple count).Unrolled (advance ⟨table', none⟩ (count + 1) s') := by
  rw [advance_succ, turn_of_item hs']
  have hcharged : s.Unrolled (State.charge { s' with scopes := ⟨todo, env⟩ :: outer }) :=
    { h with }
  have happended := append_operands table' count [] hcharged rfl
  exact happended

-- ════════════════════════════════════════════════════════════════════════
-- Turns and runs
-- ════════════════════════════════════════════════════════════════════════

/-- Applying the rule for the same entry. -/
theorem perform_unrolled (htable : table.Unrolled table') (task : Task) (h : s.Unrolled s') :
    (perform table task s).Unrolled (perform table' task s') := by
  cases task with
  | leave env => exact h.leave env
  | item item =>
    cases item with
    | load atom => exact h.load atom
    | gamma => exact h.apply htable
    | binary op => exact h.binary op
    | unary op => exact h.unary op
    | lambda body params => exact h.makeClosure body params
    | tau count => exact h.tuple count
    | branch thenId elseId => exact h.fail _
    | beta => exact h.branch htable

/-- A turn is matched by one or more turns of the machine that builds some tuples step by step. -/
theorem turn_unrolled (htable : table.Unrolled table') (h : s.Unrolled s') :
    ∃ more, (turn ⟨table, none⟩ s).Unrolled (advance ⟨table', none⟩ (more + 1) s') := by
  have htasks := h.takeTask
  generalize ht : s.takeTask? = taken at htasks
  generalize ht' : s'.takeTask? = taken' at htasks
  cases htasks with
  | none =>
    refine ⟨0, ?_⟩
    rw [advance_succ, resume_zero, turn, turn, ht, ht']
    exact h.finish
  | same task hleft =>
    refine ⟨0, ?_⟩
    rw [advance_succ, resume_zero, turn, turn, ht, ht']
    exact perform_unrolled htable task hleft.charge
  | tuple count hs' hleft =>
    -- One turn for `nil` and one for each component.
    refine ⟨count, ?_⟩
    rw [turn, ht]
    exact build_tuple count { hleft with } hs'

/-- A run is matched by a run of at least as many turns. -/
theorem advance_unrolled (htable : table.Unrolled table') (fuel : Nat) (h : s.Unrolled s') :
    ∃ fuel', fuel ≤ fuel' ∧
      (advance ⟨table, none⟩ fuel s).Unrolled (advance ⟨table', none⟩ fuel' s') := by
  induction fuel generalizing s s' with
  | zero => exact ⟨0, Nat.le_refl 0, .next h⟩
  | succ fuel ih =>
    obtain ⟨more, hturn⟩ := turn_unrolled htable h
    have hsum : ∀ rest, advance ⟨table', none⟩ (more + 1 + rest) s' =
        resume ⟨table', none⟩ rest (advance ⟨table', none⟩ (more + 1) s') :=
      fun rest => resume_add (more + 1) rest (.next s')
    rw [advance_succ]
    generalize turn ⟨table, none⟩ s = t at hturn ⊢
    generalize advance ⟨table', none⟩ (more + 1) s' = t' at hturn hsum
    cases hturn with
    | next hnext =>
      obtain ⟨fuel', hle, hrest⟩ := ih hnext
      refine ⟨more + 1 + fuel', by omega, ?_⟩
      rw [hsum]
      exact hrest
    | halted v hlast =>
      refine ⟨more + 1 + fuel, by omega, ?_⟩
      rw [hsum]
      exact .halted v hlast
    | failed e hlast =>
      refine ⟨more + 1 + fuel, by omega, ?_⟩
      rw [hsum]
      exact .failed e hlast

end Machine

end EagerLambda
