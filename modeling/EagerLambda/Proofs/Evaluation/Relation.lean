import EagerLambda.Proofs.Evaluation.Evaluate

/-!
# Related computations

Two evaluations are compared step by step. They start in stores that correspond, and they come to
related values, to the same error or to no answer, and to stores that correspond again. What the
evaluator does between function bodies keeps any correspondence of functions that have the same
parameters and the same environment.

## Main definitions

- `Store.Related`, `Answer.Related`, `Computation.Related` — the relation
- `Deeper.Related` — what happens inside related functions is related

## Main statements

- `Computation.Related.bind` — one computation after the other
- `applyWith_related` — the application of related values
-/

namespace EagerLambda

variable {α α' β β' : Type} {R : Closure Body → Closure Body → Prop}

/-- Related environments and related output. -/
structure Store.Related (R : Closure Body → Closure Body → Prop) (store store' : Store Body) :
    Prop where
  envs : Environments.Related R store.envs store'.envs
  shown : List.Forall₂ (Value.Related R) store.shown store'.shown

theorem Store.initial_related_self {settings : Machine.Settings} (h : settings.Codeless) :
    (Store.initial settings).Related R (Store.initial settings) :=
  ⟨(Machine.Settings.codeless_mapCode h _).environments_related_self, .nil⟩

/-- Two answers are results that `Post` relates, the same error or no answer at all, and their
stores are related. -/
inductive Answer.Related (R : Closure Body → Closure Body → Prop) (Post : α → α' → Prop) :
    Answer Body α → Answer Body α' → Prop
  | value {a : α} {a' : α'} {store store' : Store Body} : Post a a' → store.Related R store' →
      Related R Post (.value a store) (.value a' store')
  | failed (error : Error) {store store' : Store Body} : store.Related R store' →
      Related R Post (.failed error store) (.failed error store')
  | pending : Related R Post .pending .pending

/-- In related stores two computations give related answers. -/
def Computation.Related (R : Closure Body → Closure Body → Prop) (Post : α → α' → Prop)
    (c : Computation Body α) (c' : Computation Body α') : Prop :=
  ∀ store store' : Store Body, store.Related R store' →
    Answer.Related R Post (c.run store) (c'.run store')

namespace Computation

variable {Post : α → α' → Prop} {Post' : β → β' → Prop}

theorem Related.pure {a : α} {a' : α'} (h : Post a a') :
    Related R Post (pure a : Computation Body α) (pure a') :=
  fun _ _ hstore => .value h hstore

theorem Related.fail (error : Error) :
    Related R Post (fail error : Computation Body α) (fail error) :=
  fun _ _ hstore => .failed error hstore

theorem Related.stopped : Related R Post (stopped : Computation Body α) stopped :=
  fun _ _ _ => .pending

/-- One computation after the other. -/
theorem Related.bind {c : Computation Body α} {c' : Computation Body α'}
    {next : α → Computation Body β} {next' : α' → Computation Body β'} (h : Related R Post c c')
    (hnext : ∀ a a', Post a a' → Related R Post' (next a) (next' a')) :
    Related R Post' (c >>= next) (c' >>= next') := by
  intro store store' hstore
  have hfirst := h store store' hstore
  rw [run_bind, run_bind]
  generalize c.run store = answer at hfirst
  generalize c'.run store' = answer' at hfirst
  cases hfirst with
  | value ha hstore' => exact hnext _ _ ha _ _ hstore'
  | failed error hstore' => exact .failed error hstore'
  | pending => exact .pending

theorem Related.ofResult {r : Except Error α} {r' : Except Error α'} (h : Agree Post r r') :
    Related R Post (ofResult r) (ofResult r') := by
  cases h with
  | ok ha => exact .pure ha
  | error e _ => exact .fail e

theorem resolve_related (env : EnvId) (name : Name) :
    Related R (Value.Related R) (resolve env name) (resolve env name) :=
  fun store store' hstore =>
    Related.ofResult (hstore.envs.resolve_agree env name) store store' hstore

theorem display_related {values values' : List (Value Body)}
    (h : List.Forall₂ (Value.Related R) values values') :
    Related R (fun _ _ => True) (display values) (display values') :=
  fun _ _ hstore => .value trivial ⟨hstore.envs, List.rel_append h hstore.shown⟩

theorem openWith_related (parent : EnvId) {bindings bindings' : List (Binding Body)}
    (h : List.Forall₂ (BindingRelated R) bindings bindings') :
    Related R Eq (openWith parent bindings) (openWith parent bindings') := by
  intro store store' hstore
  simp only [openWith, Environments.open?, Environments.openFault?_of_size hstore.envs.size_eq]
  cases store'.envs.openFault? parent with
  | some fault => exact .failed _ hstore
  | none =>
    exact .value (Environments.nextId_of_size hstore.envs.size_eq)
      ⟨hstore.envs.push parent h, hstore.shown⟩

theorem openScope_related (params : List Name) {a a' : Value Body} (ha : Value.Related R a a')
    (parent : EnvId) : Related R Eq (openScope params a parent) (openScope params a' parent) :=
  (Related.ofResult (parameterBindings_agree params ha)).bind fun _ _ hb =>
    openWith_related parent hb

theorem call_related (b : Builtin) {received received' : List (Value Body)}
    (hreceived : List.Forall₂ (Value.Related R) received received') {a a' : Value Body}
    (ha : Value.Related R a a') :
    Related R (Value.Related R) (call b received a) (call b received' a') :=
  (display_related (b.shown_forall₂ ha)).bind fun _ _ _ =>
    .ofResult (b.apply_agree hreceived ha)

end Computation

open EagerLambda.Computation

/-- What happens inside related functions is related, and so is the application of what they
answer. -/
structure Deeper.Related (R : Closure Body → Closure Body → Prop) (deeper deeper' : Deeper) :
    Prop where
  enter (env : EnvId) {c d : Closure Body} : R c d →
    Computation.Related R (Value.Related R) (deeper.enter env c.body) (deeper'.enter env d.body)
  apply {f f' a a' : Value Body} : Value.Related R f f' → Value.Related R a a' →
    Computation.Related R (Value.Related R) (deeper.apply f a) (deeper'.apply f' a')

variable {deeper deeper' : Deeper}

theorem select_related {vs ws : List (Value Body)} (hvs : List.Forall₂ (Value.Related R) vs ws)
    {a a' : Value Body} (ha : Value.Related R a a') (deeper deeper' : Deeper) :
    Computation.Related R (Value.Related R) (applyWith deeper (.tuple vs) a)
      (applyWith deeper' (.tuple ws) a') := by
  cases hvs with
  | nil => exact .fail _
  | @cons v w vs ws hv hvs =>
    cases ha with
    | integer i =>
      have hcomponent := Machine.State.component?_rel (.cons hv hvs) i
      simp only [applyWith]
      generalize Machine.State.component? (v :: vs) i = r at hcomponent
      generalize Machine.State.component? (w :: ws) i = r' at hcomponent
      cases hcomponent with
      | none =>
        have hlength : (v :: vs).length = (w :: ws).length := by simp [hvs.length_eq]
        rw [hlength]
        exact .fail _
      | some hvw => exact .pure hvw
    | _ => exact .fail _

/-- Related values are applied alike, if related functions have the same parameters and the same
environment. -/
theorem applyWith_related (hR : ∀ c d, R c d → c.params = d.params ∧ c.env = d.env)
    (hdeeper : deeper.Related R deeper') {f f' a a' : Value Body} (hf : Value.Related R f f')
    (ha : Value.Related R a a') :
    Computation.Related R (Value.Related R) (applyWith deeper f a) (applyWith deeper' f' a') := by
  cases hf with
  | @closure c d hcd =>
    obtain ⟨hparams, henv⟩ := hR c d hcd
    simp only [applyWith, hparams, henv]
    refine (openScope_related d.params ha d.env).bind fun env env' heq => ?_
    subst heq
    exact hdeeper.enter env hcd
  | @eta c d hcd =>
    obtain ⟨hparams, henv⟩ := hR c d hcd
    simp only [applyWith, hparams, henv]
    refine (openScope_related d.params (.eta hcd) d.env).bind fun env env' heq => ?_
    subst heq
    exact (hdeeper.enter env hcd).bind fun g g' hg => hdeeper.apply hg ha
  | tuple hvs => exact select_related hvs ha deeper deeper'
  | fixpoint =>
    cases ha with
    | closure hcd => exact .pure (.eta hcd)
    | _ => exact .fail _
  | builtin b => exact call_related b .nil ha
  | partialApp b hvs => exact call_related b hvs ha
  | _ => exact .fail _

theorem choose_related {c c' : Value Body} (hc : Value.Related R c c')
    {arms arms' : Bool → Computation Body (Value Body)}
    (harms : ∀ b, Computation.Related R (Value.Related R) (arms b) (arms' b)) :
    Computation.Related R (Value.Related R) (choose c arms) (choose c' arms') := by
  cases hc with
  | truth b => exact harms b
  | _ => exact .fail _

theorem UnaryOp.evaluate_related (op : UnaryOp) {a a' : Value Body} (ha : Value.Related R a a') :
    Computation.Related R (Value.Related R) (op.evaluate a) (op.evaluate a') := by
  cases op with
  | print => exact call_related .print .nil ha
  | not => exact .ofResult (UnaryOp.apply_agree .not ha)
  | neg => exact .ofResult (UnaryOp.apply_agree .neg ha)

theorem Atom.evaluate_related (a : Atom) (env : EnvId) :
    Computation.Related R (Value.Related R) (a.evaluate env) (a.evaluate env) := by
  cases a with
  | identifier name => exact resolve_related env name
  | integer n => exact .pure (.integer n)
  | string text => exact .pure (.string text)
  | truth b => exact .pure (.truth b)
  | nil => exact .pure Value.related_nil
  | dummy => exact .pure .dummy

end EagerLambda
