import EagerLambda.Proofs.Evaluation.Evaluate
import EagerLambda.Proofs.Tree.Core

/-!
# Errors of the evaluator

Evaluation of a core tree fails with an ordinary error only, unless there are no handles left for
environments: the shape of a core tree is right, and the environment in which a function was made
stays open. To be sound, a function has to have a core body and an environment among those that
are open. Everything that is sound stays sound when more environments are opened.

## Main definitions

- `Closure.Sound`, `Value.Sound`, `Store.Sound` — nothing but sound functions
- `Computation.Safe` — a computation keeps stores sound and fails with ordinary errors only

## Main statements

- `Tree.evaluateWith_safe` — evaluation of a core tree is safe
- `Tree.evaluateProgram_error` — the errors of a program
-/

namespace EagerLambda

variable {α β : Type} {count count' : Nat}

/-- The body of a function is core and its environment is among the first `count`. -/
structure Closure.Sound (count : Nat) (c d : Closure Body) : Prop where
  same : c = d
  env : c.env.index < count
  later : c.body.later = []
  core : c.body.tree.Core

/-- All functions in a value are sound. -/
def Value.Sound (count : Nat) (v : Value Body) : Prop := Value.Related (Closure.Sound count) v v

/-- All functions in the environments of a store are sound. -/
def Store.Sound (store : Store Body) : Prop :=
  Environments.Related (Closure.Sound store.envs.size) store.envs store.envs

theorem Closure.Sound.mono (hle : count ≤ count') {c d : Closure Body} (h : c.Sound count d) :
    c.Sound count' d :=
  ⟨h.same, Nat.lt_of_lt_of_le h.env hle, h.later, h.core⟩

theorem Value.Sound.mono (hle : count ≤ count') {v : Value Body} (h : v.Sound count) :
    v.Sound count' :=
  Value.Related.mono (fun _ _ => Closure.Sound.mono hle) h

/-- A safe answer comes with a sound store and a value that has the property `Post` there, or with
an ordinary error, unless the handles for environments are used up. -/
inductive Answer.Safe (count : Nat) (Post : Nat → α → Prop) : Answer Body α → Prop
  | value {result : α} {store : Store Body} : count ≤ store.envs.size → store.Sound →
      Post store.envs.size result → Safe count Post (.value result store)
  | failed {error : Error} {store : Store Body} :
      error.Ordinary ∨ handleLimit ≤ store.envs.size → Safe count Post (.failed error store)
  | pending : Safe count Post .pending

/-- A safe computation gives a safe answer in every sound store with at least `count`
environments. -/
def Computation.Safe (count : Nat) (Post : Nat → α → Prop) (c : Computation Body α) : Prop :=
  ∀ store : Store Body, count ≤ store.envs.size → store.Sound → (c.run store).Safe count Post

namespace Computation

variable {Post : Nat → α → Prop} {Post' : Nat → β → Prop} {c : Computation Body α}

theorem Safe.pure {result : α} (h : ∀ count', count ≤ count' → Post count' result) :
    (pure result : Computation Body α).Safe count Post :=
  fun store hcount hsound => .value hcount hsound (h store.envs.size hcount)

theorem Safe.fail {error : Error} (h : error.Ordinary) :
    (fail error : Computation Body α).Safe count Post :=
  fun _ _ _ => .failed (.inl h)

theorem Safe.bind {next : α → Computation Body β} (h : c.Safe count Post)
    (hnext : ∀ count' result, count ≤ count' → Post count' result →
      (next result).Safe count' Post') :
    (c >>= next).Safe count Post' := by
  intro store hcount hsound
  have hfirst := h store hcount hsound
  rw [run_bind]
  generalize c.run store = answer at hfirst
  cases hfirst with
  | @value result store' hle hsound' hpost =>
    have hsecond := hnext _ result hle hpost store' (Nat.le_refl _) hsound'
    rw [Answer.andThen]
    generalize (next result).run store' = answer' at hsecond
    cases hsecond with
    | value hle' hsound'' hpost' => exact .value (Nat.le_trans hle hle') hsound'' hpost'
    | failed herror => exact .failed herror
    | pending => exact .pending
  | failed herror => exact .failed herror
  | pending => exact .pending

/-- A result that agrees with itself, however many environments there are, is safe. -/
theorem Safe.ofResult {r : Except Error (Value Body)}
    (h : ∀ count', count ≤ count' → Agree (Value.Related (Closure.Sound count')) r r) :
    (ofResult r).Safe count Value.Sound := by
  cases r with
  | ok result =>
    refine Safe.pure fun count' hle => ?_
    cases h count' hle with
    | ok hself => exact hself
  | error e =>
    cases h count (Nat.le_refl _) with
    | error _ he => exact .fail he

/-- A name has a sound value. -/
theorem resolve_safe (env : EnvId) (name : Name) :
    (resolve env name).Safe count Value.Sound := by
  intro store hcount hsound
  have hagree := hsound.resolve_agree env name
  simp only [resolve]
  generalize store.envs.resolve env name = r at hagree
  cases hagree with
  | ok hself => exact .value hcount hsound hself
  | error e he => exact .failed (.inl he)

/-- An environment is opened inside one that exists, unless the handles are used up. -/
theorem openWith_safe {parent : EnvId} {bindings : List (Binding Body)}
    (hparent : parent.index < count)
    (hbindings : ∀ count', count ≤ count' →
      List.Forall₂ (BindingRelated (Closure.Sound count')) bindings bindings) :
    (openWith parent bindings).Safe count fun count' env => env.index < count' := by
  intro store hcount hsound
  have hexists : ¬ store.envs.size ≤ parent.index := by omega
  simp only [openWith, Environments.open?, Environments.openFault?, if_neg hexists]
  by_cases hfull : handleLimit ≤ store.envs.size
  · rw [if_pos hfull]
    exact .failed (.inr hfull)
  · rw [if_neg hfull]
    have hsize := store.envs.size_push parent bindings
    have hle : store.envs.size ≤ (store.envs.push parent bindings).size := by omega
    refine .value (Nat.le_trans hcount hle) ?_ ?_
    · have hold := Environments.Related.mono (fun _ _ => Closure.Sound.mono hle) hsound
      exact hold.push parent (hbindings _ (Nat.le_trans hcount hle))
    · show store.envs.nextId.index < (store.envs.push parent bindings).size
      rw [hsize]
      exact Nat.lt_succ_self _

theorem openScope_safe (params : List Name) {argument : Value Body} {parent : EnvId}
    (hargument : argument.Sound count) (hparent : parent.index < count) :
    (openScope params argument parent).Safe count fun count' env => env.index < count' := by
  have hbindings : ∀ count', count ≤ count' →
      Agree (List.Forall₂ (BindingRelated (Closure.Sound count')))
        (parameterBindings params argument) (parameterBindings params argument) :=
    fun _ hle => parameterBindings_agree params (hargument.mono hle)
  rw [openScope]
  generalize parameterBindings params argument = r at hbindings
  cases r with
  | ok bindings =>
    refine openWith_safe hparent fun count' hle => ?_
    cases hbindings count' hle with
    | ok hself => exact hself
  | error e =>
    cases hbindings count (Nat.le_refl _) with
    | error _ he => exact .fail he

theorem display_safe (values : List (Value Body)) :
    (display values).Safe count fun _ _ => True :=
  fun _ hcount hsound => .value hcount hsound trivial

theorem call_safe (b : Builtin) {received : List (Value Body)} {argument : Value Body}
    (hreceived : List.Forall₂ (Value.Related (Closure.Sound count)) received received)
    (hargument : argument.Sound count) : (call b received argument).Safe count Value.Sound := by
  refine (display_safe _).bind fun count' _ hle _ => Safe.ofResult fun count'' hle' => ?_
  have hmono := fun c d => Closure.Sound.mono (Nat.le_trans hle hle') (c := c) (d := d)
  exact b.apply_agree (hreceived.imp fun _ _ hv => hv.mono hmono)
    (hargument.mono (Nat.le_trans hle hle'))

end Computation

open EagerLambda.Computation

/-- What happens inside functions is safe, as long as the functions are sound. -/
structure Deeper.Safe (deeper : Deeper) : Prop where
  enter {count : Nat} {env : EnvId} {c : Closure Body} : env.index < count → c.Sound count c →
    (deeper.enter env c.body).Safe count Value.Sound
  apply {count : Nat} {f a : Value Body} : f.Sound count → a.Sound count →
    (deeper.apply f a).Safe count Value.Sound

variable {deeper : Deeper}

theorem select_safe {components : List (Value Body)} {index : Value Body}
    (hcomponents : List.Forall₂ (Value.Related (Closure.Sound count)) components components)
    (hne : components ≠ []) (hindex : index.Sound count) :
    (applyWith deeper (.tuple components) index).Safe count Value.Sound := by
  obtain ⟨first, rest, rfl⟩ := List.exists_cons_of_ne_nil hne
  cases hindex with
  | integer i =>
    have hcomponent := Machine.State.component?_rel hcomponents i
    simp only [applyWith]
    generalize Machine.State.component? (first :: rest) i = r at hcomponent
    cases hcomponent with
    | none => exact .fail trivial
    | some hself => exact .pure fun count' hle => Value.Sound.mono hle hself
  | _ => exact .fail trivial

theorem applyWith_safe (hdeeper : deeper.Safe) {f a : Value Body} (hf : f.Sound count)
    (ha : a.Sound count) : (applyWith deeper f a).Safe count Value.Sound := by
  cases f with
  | closure c =>
    cases hf with
    | closure hc =>
      refine (openScope_safe c.params ha hc.env).bind fun count' env hle henv => ?_
      exact hdeeper.enter henv (hc.mono hle)
  | eta c =>
    cases hf with
    | eta hc =>
      refine (openScope_safe c.params (.eta hc) hc.env).bind fun count' env hle henv => ?_
      refine (hdeeper.enter henv (hc.mono hle)).bind fun count'' f' hle' hf' => ?_
      exact hdeeper.apply hf' (ha.mono (Nat.le_trans hle hle'))
  | tuple components =>
    cases hf with
    | tuple hcomponents =>
      cases hcomponents with
      | nil => exact .fail trivial
      | cons hfirst hrest => exact select_safe (.cons hfirst hrest) (List.cons_ne_nil _ _) ha
  | fixpoint =>
    cases ha with
    | closure hc => exact .pure fun count' hle => .eta (hc.mono hle)
    | _ => exact .fail trivial
  | builtin b => exact call_safe b .nil ha
  | partialApp b received =>
    cases hf with
    | partialApp _ hreceived => exact call_safe b hreceived ha
  | _ => exact .fail trivial

theorem choose_safe {condition : Value Body} {arms : Bool → Computation Body (Value Body)}
    (harms : ∀ b, (arms b).Safe count Value.Sound) :
    (choose condition arms).Safe count Value.Sound := by
  cases condition with
  | truth b => exact harms b
  | _ => exact .fail trivial

theorem UnaryOp.evaluate_safe (op : UnaryOp) {a : Value Body} (ha : a.Sound count) :
    (op.evaluate a).Safe count Value.Sound := by
  have hresult := fun (count' : Nat) (hle : count ≤ count') => op.apply_agree (ha.mono hle)
  cases op with
  | print => exact call_safe .print .nil ha
  | not | neg => exact .ofResult hresult

theorem Atom.evaluate_safe (a : Atom) (env : EnvId) :
    (a.evaluate env).Safe count Value.Sound := by
  cases a with
  | identifier name => exact resolve_safe env name
  | nil => exact .pure fun _ _ => Value.related_nil
  | _ => exact .pure fun _ _ => by constructor

namespace Tree

theorem evaluateAll_safe {components : List Tree}
    (ih : ∀ t ∈ components, ∀ {count : Nat} {env : EnvId} {site : Site}, env.index < count →
      (t.evaluateWith deeper env site).Safe count Value.Sound)
    {env : EnvId} (henv : env.index < count) (site : Site) (index : Nat) :
    (evaluateAll deeper env site index components).Safe count fun count' values =>
      List.Forall₂ (Value.Related (Closure.Sound count')) values values := by
  induction components generalizing index with
  | nil => exact .pure fun _ _ => .nil
  | cons t rest ihRest =>
    refine (ihRest (fun t ht => ih t (by simp [ht])) (index + 1)).bind
      fun count' values hle hvalues => ?_
    refine (ih t (by simp) (Nat.lt_of_lt_of_le henv hle)).bind fun count'' value hle' hvalue => ?_
    refine .pure fun count₁ hle₁ => .cons (Value.Sound.mono hle₁ hvalue) ?_
    exact hvalues.imp fun _ _ hv => hv.mono fun _ _ => Closure.Sound.mono (Nat.le_trans hle' hle₁)

/-- Evaluation of a core tree is safe. -/
theorem evaluateWith_safe (hdeeper : deeper.Safe) {tree : Tree} (hcore : tree.Core) {env : EnvId}
    {site : Site} (henv : env.index < count) :
    (tree.evaluateWith deeper env site).Safe count Value.Sound := by
  -- The count of environments grows from one operand to the next, so what is known of an earlier
  -- value is carried over to the larger count.
  induction hcore generalizing count env site with
  | atom a => exact a.evaluate_safe env
  | binary op _ _ ihLeft ihRight =>
    refine (ihRight henv).bind fun count' b hle hb => ?_
    refine (ihLeft (Nat.lt_of_lt_of_le henv hle)).bind fun count'' a hle' ha => ?_
    exact .ofResult fun count₁ hle₁ =>
      op.apply_agree (ha.mono hle₁) (hb.mono (Nat.le_trans hle' hle₁))
  | unary op _ ih => exact (ih henv).bind fun count' a hle ha => op.evaluate_safe ha
  | @lambda binder body params hparams hbody ih =>
    rw [evaluateWith_lambda _ _ _ hparams]
    exact .pure fun count' hle => .closure ⟨rfl, Nat.lt_of_lt_of_le henv hle, rfl, hbody⟩
  | conditional _ _ _ ihCondition ihThen ihElse =>
    refine (ihCondition henv).bind fun count' c hle hc => choose_safe fun b => ?_
    cases b with
    | true => exact ihThen (Nat.lt_of_lt_of_le henv hle)
    | false => exact ihElse (Nat.lt_of_lt_of_le henv hle)
  | tau hcomponents ih =>
    refine (evaluateAll_safe (fun t ht _ _ _ => ih t ht) henv site 0).bind
      fun count' values hle hvalues => ?_
    refine .pure fun count'' hle' => .tuple ?_
    exact hvalues.imp fun _ _ hv => hv.mono fun _ _ => Closure.Sound.mono hle'
  | gamma _ _ ihFunction ihArgument =>
    refine (ihArgument henv).bind fun count' a hle ha => ?_
    refine (ihFunction (Nat.lt_of_lt_of_le henv hle)).bind fun count'' f hle' hf => ?_
    exact applyWith_safe hdeeper hf (ha.mono hle')

end Tree

theorem stopped_safe {Post : Nat → α → Prop} :
    (stopped : Computation Body α).Safe count Post :=
  fun _ _ _ => .pending

/-- What happens inside functions is safe within every clock. -/
theorem deeperAt_safe (clock : Nat) : (deeperAt clock).Safe := by
  induction clock with
  | zero => exact ⟨fun _ _ => stopped_safe, fun _ _ => stopped_safe⟩
  | succ clock ih =>
    refine ⟨fun henv hc => ?_, fun hf ha => applyWith_safe ih hf ha⟩
    simp only [deeperAt, enterWith, hc.later]
    exact Tree.evaluateWith_safe ih hc.core henv

/-- A core program fails with an ordinary error, unless the handles for environments are used
up. -/
theorem Tree.evaluateProgram_error {tree : Tree} (hcore : tree.Core)
    {settings : Machine.Settings} (hcode : settings.Codeless) {clock : Nat} {error : Error}
    {store : Store Body} (h : tree.evaluateProgram clock settings = .failed error store) :
    error.Ordinary ∨ handleLimit ≤ store.envs.size := by
  have hsize : (Store.initial settings).envs.size = 1 := Machine.Settings.size_environments _
  have hroot : EnvId.root.index < 1 := Nat.zero_lt_one
  have hsafe : (tree.evaluate clock .root).Safe 1 Value.Sound :=
    evaluateWith_safe (deeperAt_safe clock) hcore hroot
  have hanswer := hsafe (Store.initial settings) (Nat.le_of_eq hsize.symm)
    (Machine.Settings.codeless_mapCode hcode _).environments_related_self
  have hrun : (tree.evaluateWith (deeperAt clock) .root []).run (Store.initial settings) =
    .failed error store := h
  rw [Tree.evaluate, hrun] at hanswer
  cases hanswer with
  | failed herror => exact herror

end EagerLambda
