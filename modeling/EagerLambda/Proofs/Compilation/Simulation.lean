import EagerLambda.Proofs.Control.Layout
import EagerLambda.Proofs.Evaluation.Evaluate
import EagerLambda.Proofs.Machine.Follows

/-!
# The machine follows the evaluator

The machine that executes the code of a tree follows the evaluation of the tree. The proof goes
along the tree; inside functions it goes along the clock. A function value of the machine stands
for one of the evaluator if its structure is the code of the subtree that the evaluator's function
computes.

## Main definitions

- `Codes` — a function of the machine stands for a function of the evaluator
- `Follows` for trees, applications and function bodies: `TreesFollow`, `DeeperFollows`

## Main statements

- `apply_follows` — the machine follows an application
- `treesFollow` — the machine follows the evaluation of a tree
- `deeperFollows_deeperAt` — the machine follows what happens inside functions
-/

namespace EagerLambda

open Control

namespace Machine

variable {table : Table} {id : Site → ControlId} {deeper : Deeper} {clock : Nat}

/-- The function of the machine has the parameters and the environment of the evaluator's function,
and its structure is the code of the subtree that the evaluator's function computes. -/
structure Codes (table : Table) (id : Site → ControlId) (c : Closure Body) (d : Closure) :
    Prop where
  eq_mapCode : d = c.mapCode fun body => id body.site
  later : c.body.later = []
  code : ∃ items, c.body.tree.LaidOut table id c.body.site items ∧
    table.get? (id c.body.site) = some ⟨id c.body.site, items⟩

/-- The machine follows the evaluation of trees: it executes the items of a tree and is left with
the value of the tree. -/
def TreesFollow (table : Table) (id : Site → ControlId) (clock : Nat) (deeper : Deeper) : Prop :=
  ∀ {site : Site} {tree : Tree} {items todo : List Item} {env : EnvId} {outer : List Scope}
    {operands : List Operand} {store : Store Body} {s : State},
    tree.LaidOut table id site items →
    Matches (Codes table id) (⟨items.reverse ++ todo, env⟩ :: outer) operands store s →
    Follows (Codes table id) ⟨table, none⟩ clock
      (Returned (Codes table id) (⟨todo, env⟩ :: outer) operands) (.next s)
      ((tree.evaluateWith deeper env site).run store)

/-- The machine follows what happens inside functions. It gets there with a turn of its own, so it
need not be running for one of the turns that the clock asks for. -/
structure DeeperFollows (table : Table) (id : Site → ControlId) (clock : Nat) (deeper : Deeper) :
    Prop where
  enter {c : Closure Body} {d : Closure} {env : EnvId} {scopes : List Scope}
    {operands : List Operand} {store : Store Body} {s : State} : Codes table id c d →
    Matches (Codes table id) (⟨[], env⟩ :: scopes) (.marker env :: operands) store s →
    Follows (Codes table id) ⟨table, none⟩ (clock - 1) (Returned (Codes table id) scopes operands)
      (s.splice table d.body) ((deeper.enter env c.body).run store)
  apply {f a : Value Body} {f' a' : Value} {todo : List Item} {env : EnvId} {outer : List Scope}
    {operands : List Operand} {store : Store Body} {s : State} :
    Value.Related (Codes table id) f f' → Value.Related (Codes table id) a a' →
    Matches (Codes table id) (⟨.gamma :: todo, env⟩ :: outer) (.value f' :: .value a' :: operands)
      store s →
    Follows (Codes table id) ⟨table, none⟩ (clock - 1)
      (Returned (Codes table id) (⟨todo, env⟩ :: outer) operands) (.next s)
      ((deeper.apply f a).run store)

section Applications

variable {scopes : List Scope} {operands : List Operand} {store : Store Body} {s : State}

/-- The machine opens the environment of a function like the evaluator and then follows the
evaluation of the body. -/
theorem enter_follows (hdeeper : DeeperFollows table id clock deeper) {c : Closure Body}
    {d : Closure} (hcd : Codes table id c d) {bindings : List (Binding Body)}
    {bindings' : List Binding}
    (hbindings : List.Forall₂ (BindingRelated (Codes table id)) bindings bindings')
    (h : Matches (Codes table id) scopes operands store s) :
    Follows (Codes table id) ⟨table, none⟩ (clock - 1) (Returned (Codes table id) scopes operands)
      (s.enter table d bindings')
      ((Computation.openWith c.env bindings >>= fun env => deeper.enter env c.body).run store) := by
  have henv : c.env = d.env := by rw [hcd.eq_mapCode]; rfl
  simp only [State.enter, Computation.run_bind, Computation.openWith, Environments.open?, henv,
    Environments.openFault?_of_size h.envs.size_eq]
  cases s.envs.openFault? d.env with
  | some fault => exact .fail _ h.toShares
  | none =>
    rw [Environments.nextId_of_size h.envs.size_eq]
    refine hdeeper.enter hcd ?_
    exact {
      envs := h.envs.push d.env hbindings
      shown := h.shown
      scopes := by rw [h.scopes]
      operands := by rw [h.operands]
      current := rfl }

/-- The machine follows the application of a function of the program. -/
theorem applyClosure_follows (hdeeper : DeeperFollows table id clock deeper) {c : Closure Body}
    {d : Closure} (hcd : Codes table id c d) {a : Value Body} {a' : Value}
    (ha : Value.Related (Codes table id) a a')
    (h : Matches (Codes table id) scopes (.value (.closure d) :: .value a' :: operands) store s) :
    Follows (Codes table id) ⟨table, none⟩ (clock - 1) (Returned (Codes table id) scopes operands)
      (s.apply table)
      ((Computation.openScope c.params a c.env >>= fun env => deeper.enter env c.body).run
        store) := by
  have hd : d.params = c.params := by rw [hcd.eq_mapCode]; rfl
  rw [apply_closure table h.operands]
  have hrest : Matches (Codes table id) scopes (.value a' :: operands) store
      { s with operands := .value a' :: operands } := { h with operands := rfl }
  refine hrest.withValue fun s' h' => ?_
  have hbindings := Computation.parameterBindings_agree c.params ha
  rw [Computation.openScope, hd]
  generalize Computation.parameterBindings c.params a = r at hbindings
  generalize Computation.parameterBindings c.params a' = r' at hbindings
  cases hbindings with
  | ok hb => exact enter_follows hdeeper hcd hb h'
  | error e _ => exact .fail e h'.toShares

/-- The machine follows the application of a builtin. -/
theorem call_follows {clock : Nat} (b : Builtin) {vs : List (Value Body)} {ws : List Value}
    (hvs : List.Forall₂ (Value.Related (Codes table id)) vs ws) {a : Value Body} {a' : Value}
    (ha : Value.Related (Codes table id) a a')
    (h : Matches (Codes table id) scopes (.value a' :: operands) store s) :
    Follows (Codes table id) ⟨table, none⟩ clock (Returned (Codes table id) scopes operands)
      (s.call b ws) ((Computation.call b vs a).run store) := by
  refine h.withValue fun s' h' => ?_
  have hshown : Matches (Codes table id) scopes operands
      { store with shown := b.shown a ++ store.shown }
      { s' with shown := b.shown a' ++ s'.shown } :=
    { h' with shown := List.rel_append (b.shown_forall₂ ha) h'.shown }
  exact hshown.pushResult (b.apply_agree hvs ha)

/-- The machine follows the selection from a tuple. -/
theorem select_follows {clock : Nat} {vs : List (Value Body)} {ws : List Value}
    (hvs : List.Forall₂ (Value.Related (Codes table id)) vs ws) (hne : vs ≠ []) {a : Value Body}
    {a' : Value} (ha : Value.Related (Codes table id) a a')
    (h : Matches (Codes table id) scopes (.value a' :: operands) store s) :
    Follows (Codes table id) ⟨table, none⟩ clock (Returned (Codes table id) scopes operands)
      (s.select ws) ((applyWith deeper (.tuple vs) a).run store) := by
  obtain ⟨first, rest, rfl⟩ := List.exists_cons_of_ne_nil hne
  refine h.withValue fun s' h' => ?_
  cases ha with
  | integer i =>
    have hcomponent := State.component?_rel hvs i
    simp only [applyWith]
    generalize State.component? (first :: rest) i = r at hcomponent
    generalize State.component? ws i = r' at hcomponent
    cases hcomponent with
    | none =>
      rw [hvs.length_eq]
      exact .fail _ h'.toShares
    | some hv => exact .done (h'.returned hv)
  | _ => exact .fail _ h'.toShares

/-- The machine follows the unfolding of a recursive function: it applies the function to itself,
and the result to the argument. -/
theorem unfold_follows (hdeeper : DeeperFollows table id clock deeper) {c : Closure Body}
    {d : Closure} (hcd : Codes table id c d) {a : Value Body} {a' : Value}
    (ha : Value.Related (Codes table id) a a') {todo : List Item} {env : EnvId}
    {outer : List Scope}
    (h : Matches (Codes table id) (⟨todo, env⟩ :: outer) (.value a' :: operands) store s) :
    Follows (Codes table id) ⟨table, none⟩ (clock - 1)
      (Returned (Codes table id) (⟨todo, env⟩ :: outer) operands)
      (s.unfold d) ((applyWith deeper (.eta c) a).run store) := by
  have hscheduled := ((h.push (.eta d)).push (.closure d)).schedule [.gamma, .gamma]
  have hunfolded : Follows (Codes table id) ⟨table, none⟩ (clock - 1 + 1)
      (Returned (Codes table id) (⟨.gamma :: todo, env⟩ :: outer) (.value a' :: operands))
      (s.unfold d)
      ((Computation.openScope c.params (.eta c) c.env >>= fun env =>
        deeper.enter env c.body).run store) :=
    hscheduled.turn_item fun s' h' => applyClosure_follows hdeeper hcd (.eta hcd) h'
  -- The evaluator nests the two applications; the machine makes them one after the other.
  have hassoc : (applyWith deeper (.eta c) a).run store =
      ((Computation.openScope c.params (.eta c) c.env >>= fun env =>
        deeper.enter env c.body).run store).andThen fun unfolded =>
          (deeper.apply unfolded a).run := by
    rw [Computation.run_bind, Answer.andThen_assoc]
    rfl
  rw [hassoc]
  refine (hunfolded.mono (Nat.le_succ _)).bind fun f store' s' hf => ?_
  obtain ⟨f', hff', h'⟩ := hf
  exact hdeeper.apply hff' ha h'

/-- The machine follows an application. -/
theorem apply_follows (hdeeper : DeeperFollows table id clock deeper) {f a : Value Body}
    {f' a' : Value} (hf : Value.Related (Codes table id) f f')
    (ha : Value.Related (Codes table id) a a') {todo : List Item} {env : EnvId}
    {outer : List Scope}
    (h : Matches (Codes table id) (⟨todo, env⟩ :: outer) (.value f' :: .value a' :: operands)
      store s) :
    Follows (Codes table id) ⟨table, none⟩ (clock - 1)
      (Returned (Codes table id) (⟨todo, env⟩ :: outer) operands)
      (s.apply table) ((applyWith deeper f a).run store) := by
  cases hf with
  | closure hcd => exact applyClosure_follows hdeeper hcd ha h
  | eta hcd => exact h.withValue fun s' h' => unfold_follows hdeeper hcd ha h'
  | tuple hvs =>
    refine h.withValue fun s' h' => ?_
    cases hvs with
    | nil => exact .fail _ h'.toShares
    | cons hv hvs => exact select_follows (.cons hv hvs) (List.cons_ne_nil _ _) ha h'
  | fixpoint =>
    refine h.withValue fun s' h' => h'.withValue fun s'' h'' => ?_
    cases ha with
    | closure hcd => exact .done (h''.returned (.eta hcd))
    | _ => exact .fail _ h''.toShares
  | builtin b => exact h.withValue fun s' h' => call_follows b .nil ha h'
  | partialApp b hvs => exact h.withValue fun s' h' => call_follows b hvs ha h'
  | _ => exact h.withValue fun s' h' => .fail _ h'.toShares

end Applications

section Trees

variable {todo : List Item} {env : EnvId} {outer : List Scope} {operands : List Operand}
  {store : Store Body} {s : State}

/-- The machine follows the evaluation of an atom. -/
theorem load_follows {clock : Nat} (a : Atom)
    (h : Matches (Codes table id) (⟨todo, env⟩ :: outer) operands store s) :
    Follows (Codes table id) ⟨table, none⟩ clock
      (Returned (Codes table id) (⟨todo, env⟩ :: outer) operands) (s.load a)
      ((a.evaluate env).run store) := by
  cases a with
  | identifier name =>
    have hcurrent : s.current = some env := h.current
    simp only [State.load, State.withCurrent, hcurrent]
    exact h.pushResult (h.envs.resolve_agree env name)
  | integer n => exact .done (h.returned (.integer n))
  | string text => exact .done (h.returned (.string text))
  | truth b => exact .done (h.returned (.truth b))
  | nil => exact .done (h.returned Value.related_nil)
  | dummy => exact .done (h.returned .dummy)

/-- The machine follows a unary operator. -/
theorem unary_follows {clock : Nat} (op : UnaryOp) {a : Value Body} {a' : Value}
    (ha : Value.Related (Codes table id) a a') {scopes : List Scope}
    (h : Matches (Codes table id) scopes (.value a' :: operands) store s) :
    Follows (Codes table id) ⟨table, none⟩ clock (Returned (Codes table id) scopes operands)
      (s.unary op) ((op.evaluate a).run store) := by
  cases op with
  | print => exact call_follows .print .nil ha h
  | not =>
    rw [State.unary]
    · exact h.withValue fun s' h' => h'.pushResult (UnaryOp.apply_agree .not ha)
    · exact UnaryOp.noConfusion
  | neg =>
    rw [State.unary]
    · exact h.withValue fun s' h' => h'.pushResult (UnaryOp.apply_agree .neg ha)
    · exact UnaryOp.noConfusion

/-- The machine goes on with the items of a structure. -/
theorem splice_eq {target : ControlId} {items : List Item}
    (h : table.get? target = some ⟨target, items⟩) (s : State) :
    s.splice table target = .next (s.schedule items.reverse) := by
  rw [State.splice, h]
  rfl

/-- The machine follows the choice between the arms of a conditional. -/
theorem branch_follows {clock : Nat} {thenId elseId : ControlId} {condition : Value Body}
    {condition' : Value} (hcondition : Value.Related (Codes table id) condition condition')
    {arms : Bool → Computation Body (Value Body)}
    (harms : ∀ b s, Matches (Codes table id) (⟨todo, env⟩ :: outer) operands store s →
      Follows (Codes table id) ⟨table, none⟩ clock
        (Returned (Codes table id) (⟨todo, env⟩ :: outer) operands)
        (s.splice table (if b then thenId else elseId)) ((arms b).run store))
    (h : Matches (Codes table id) (⟨.branch thenId elseId :: todo, env⟩ :: outer)
      (.value condition' :: operands) store s) :
    Follows (Codes table id) ⟨table, none⟩ clock
      (Returned (Codes table id) (⟨todo, env⟩ :: outer) operands) (s.branch table)
      ((choose condition arms).run store) := by
  refine h.withValue fun s' h' => ?_
  cases hcondition with
  | truth b =>
    have htake : s'.takeTask? = some (.item (.branch thenId elseId),
        { s' with scopes := ⟨todo, env⟩ :: outer }) := by
      rw [State.takeTask?, h'.scopes]
    simp only [htake]
    exact harms b _ { h' with scopes := rfl }
  | _ => exact .fail _ h'.toShares

/-- The state has this many values on top of these stacks, which stand for values of the
evaluator. -/
def ReturnedAll (R : Closure Body → Closure → Prop) (count : Nat) (scopes : List Scope)
    (operands : List Operand) (results : List (Value Body)) (store : Store Body) (s : State) :
    Prop :=
  ∃ vs, vs.length = count ∧ List.Forall₂ (Value.Related R) results vs ∧
    Matches R scopes (vs.map .value ++ operands) store s

/-- The machine follows the evaluation of the components of a tuple, the last one first, if it
follows the evaluation of each of them. -/
theorem components_follow {clock : Nat} {deeper : Deeper} {site : Site} {index : Nat}
    {components : List Tree} {codes : List (List Item)} (hlength : codes.length = components.length)
    (hfollows : ∀ (i : Nat) (t : Tree) (items : List Item), components[i]? = some t →
      codes[i]? = some items → ∀ {todo : List Item} {operands : List Operand}
        {store : Store Body} {s : State},
      Matches (Codes table id) (⟨items.reverse ++ todo, env⟩ :: outer) operands store s →
      Follows (Codes table id) ⟨table, none⟩ clock
        (Returned (Codes table id) (⟨todo, env⟩ :: outer) operands) (.next s)
        ((t.evaluateWith deeper env ((index + i) :: site)).run store))
    (h : Matches (Codes table id) (⟨codes.flatten.reverse ++ todo, env⟩ :: outer) operands store
      s) :
    Follows (Codes table id) ⟨table, none⟩ clock
      (ReturnedAll (Codes table id) components.length (⟨todo, env⟩ :: outer) operands) (.next s)
      ((Tree.evaluateAll deeper env site index components).run store) := by
  induction components generalizing codes index todo operands store s with
  | nil =>
    obtain rfl : codes = [] := List.length_eq_zero_iff.1 hlength
    exact .done ⟨[], rfl, .nil, h⟩
  | cons t rest ih =>
    obtain ⟨items, codes, rfl⟩ := List.exists_cons_of_length_eq_add_one hlength
    rw [List.flatten_cons, List.reverse_append, List.append_assoc] at h
    rw [Tree.evaluateAll, Computation.run_bind]
    refine (ih (by simpa using hlength) (fun i t items ht hitems => ?_) h).bind
      fun values store' s' hvalues => ?_
    · rw [show index + 1 + i = index + (i + 1) by omega]
      exact hfollows (i + 1) t items (by simpa using ht) (by simpa using hitems)
    · obtain ⟨vs, hcount, hvs, h'⟩ := hvalues
      rw [Computation.run_bind]
      refine (hfollows 0 t items rfl rfl h').bind fun value store'' s'' hvalue => ?_
      obtain ⟨v, hv, h''⟩ := hvalue
      exact .done ⟨v :: vs, by simp [hcount], .cons hv hvs, h''⟩

/-- The machine follows the evaluation of a tree whose code the table holds. -/
theorem treesFollow (hdeeper : DeeperFollows table id clock deeper) :
    TreesFollow table id clock deeper := by
  intro site tree items todo env outer operands store s hlaid h
  induction hlaid generalizing todo env outer operands store s with
  | atom site a =>
    refine Follows.mono (h.turn_item fun s' h' => ?_) (Nat.le_succ clock)
    exact load_follows a h'
  | binary site op _ _ ihLeft ihRight =>
    -- A layout is executed from its last item on, so the right operand comes first.
    simp only [List.reverse_cons, List.reverse_append, List.append_assoc,
      List.singleton_append] at h
    rw [Tree.evaluateWith, Computation.run_bind]
    refine (ihRight h).bind fun b store' s' hb => ?_
    obtain ⟨b', hbb', h'⟩ := hb
    rw [Computation.run_bind]
    refine (ihLeft h').bind fun a store'' s'' ha => ?_
    obtain ⟨a', haa', h''⟩ := ha
    refine Follows.mono (h''.turn_item fun s₁ h₁ => ?_) (Nat.le_succ clock)
    rw [perform, State.binary]
    refine h₁.withValue fun s₂ h₂ => ?_
    refine h₂.withValue fun s₃ h₃ => ?_
    exact h₃.pushResult (op.apply_agree haa' hbb')
  | unary site op _ ih =>
    rw [List.reverse_cons, List.append_assoc, List.singleton_append] at h
    rw [Tree.evaluateWith, Computation.run_bind]
    refine (ih h).bind fun a store' s' ha => ?_
    obtain ⟨a', haa', h'⟩ := ha
    exact Follows.mono (h'.turn_item fun s₁ h₁ => unary_follows op haa' h₁) (Nat.le_succ clock)
  | gamma site _ _ ihFunction ihArgument =>
    simp only [List.reverse_cons, List.reverse_append, List.append_assoc,
      List.singleton_append] at h
    rw [Tree.apply, Tree.of, Tree.evaluateWith, Computation.run_bind]
    refine (ihArgument h).bind fun a store' s' ha => ?_
    obtain ⟨a', haa', h'⟩ := ha
    rw [Computation.run_bind]
    refine (ihFunction h').bind fun f store'' s'' hf => ?_
    obtain ⟨f', hff', h''⟩ := hf
    have hturn := h''.turn_item fun s₁ h₁ => apply_follows hdeeper hff' haa' h₁
    exact hturn.mono (by omega)
  | @lambda site binder body params items hparams hbody hget ih =>
    refine Follows.mono (h.turn_item fun s' h' => ?_) (Nat.le_succ clock)
    have hcurrent : s'.current = some env := h'.current
    rw [Tree.evaluateWith_lambda deeper env site hparams]
    simp only [perform, State.makeClosure, State.withCurrent, hcurrent]
    exact .done (h'.returned (.closure ⟨rfl, rfl, items, hbody, hget⟩))
  | @conditional site condition thenTree elseTree items thenItems elseItems _ hthen getThen helse
      getElse ihCondition ihThen ihElse =>
    simp only [List.reverse_cons, List.append_assoc, List.singleton_append] at h
    rw [Tree.of, Tree.evaluateWith, Computation.run_bind]
    refine (ihCondition h).bind fun c store' s' hc => ?_
    obtain ⟨c', hcc', h'⟩ := hc
    refine Follows.mono (h'.turn_item fun s₁ h₁ => ?_) (Nat.le_succ clock)
    refine branch_follows hcc' (fun b s hs => ?_) h₁
    cases b with
    | true =>
      have hs' := hs.schedule thenItems.reverse
      simp only [splice_eq getThen, if_true]
      exact ihThen hs'
    | false =>
      have hs' := hs.schedule elseItems.reverse
      simp only [Bool.false_eq_true, if_false, splice_eq getElse]
      exact ihElse hs'
  | @tau site components codes hlength hcodes ih =>
    rw [List.reverse_cons, List.append_assoc, List.singleton_append] at h
    rw [Tree.of, Tree.evaluateWith, Computation.run_bind]
    refine (components_follow hlength (fun i t items ht hitems => ?_) h).bind
      fun values store' s' hvalues => ?_
    · rw [Nat.zero_add]
      exact ih i t items ht hitems
    · obtain ⟨vs, hcount, hvs, h'⟩ := hvalues
      refine Follows.mono (h'.turn_item fun s₁ h₁ => ?_) (Nat.le_succ clock)
      rw [perform, State.tuple, ← hcount]
      exact h₁.withValues fun s₂ h₂ => .done (h₂.returned (.tuple hvs))

end Trees

/-- The machine follows what happens in function bodies if it follows the evaluation of trees: it
executes the structure of the body and closes the scope. -/
theorem enterWith_follows (htrees : TreesFollow table id clock deeper) {c : Closure Body}
    {d : Closure} (hcd : Codes table id c d) {env : EnvId} {scopes : List Scope}
    {operands : List Operand} {store : Store Body} {s : State}
    (h : Matches (Codes table id) (⟨[], env⟩ :: scopes) (.marker env :: operands) store s) :
    Follows (Codes table id) ⟨table, none⟩ clock (Returned (Codes table id) scopes operands)
      (s.splice table d.body) ((enterWith deeper env c.body).run store) := by
  obtain ⟨hmap, hlater, items, hlaid, hget⟩ := hcd
  have hbody : d.body = id c.body.site := by rw [hmap]; rfl
  rw [hbody, splice_eq hget, enterWith, hlater]
  refine (htrees hlaid (h.schedule items.reverse)).after fun w store' s' hw => ?_
  obtain ⟨v, hv, h'⟩ := hw
  obtain ⟨s'', hturn, h''⟩ := h'.leave table
  refine ⟨1, s'', ?_, v, hv, h''⟩
  rw [resume_succ, resume_zero, hturn]

/-- The machine follows what happens inside functions, for at least as many turns as the clock
allows. -/
theorem deeperFollows_deeperAt (table : Table) (id : Site → ControlId) (clock : Nat) :
    DeeperFollows table id clock (deeperAt clock) := by
  induction clock with
  | zero =>
    -- No turns are asked for, so it is enough that the machine has neither failed nor halted.
    refine ⟨fun hcd h => ?_, fun _ _ _ => .pending rfl⟩
    obtain ⟨hmap, -, items, -, hget⟩ := hcd
    rw [hmap, Closure.mapCode, splice_eq hget]
    exact .pending rfl
  | succ clock ih =>
    refine ⟨fun hcd h => enterWith_follows (treesFollow ih) hcd h, fun hf ha h => ?_⟩
    have hturn := h.turn_item fun s' h' => apply_follows ih hf ha h'
    exact hturn.mono (by omega)

end Machine

end EagerLambda
