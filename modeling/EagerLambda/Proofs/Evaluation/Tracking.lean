import EagerLambda.Proofs.Environment.Context
import EagerLambda.Proofs.Evaluation.Lexical
import EagerLambda.Proofs.Tree.Means

/-!
# Lexical evaluation and evaluation with environments

Evaluation with lexical scopes is compared with evaluation in environments. A function that carries
its scope corresponds to a function made in an environment that stands for this scope, if the body
of one is the core form of the body of the other. Which scope an environment stands for is chosen
when it is opened and does not change later. The two evaluations come to related values, to the same
error or to no answer; only the evaluation in environments can also run out of environments.

## Main definitions

- `Lexical.CoreForm`, `Closure.Tracks` — bodies and functions that correspond
- `Store.Tracks`, `Answer.Tracks`, `Computation.Tracks` — the relation on computations
- `Lexical.Inner.Tracks` — what happens inside functions corresponds

## Main statements

- `Computation.Tracks.bind` — one computation after the other
- `Lexical.extend_tracks` — opening a scope
- `Lexical.applyWith_tracks` — the application of related values
-/

namespace EagerLambda

open EagerLambda.Computation

variable {α α' β β' : Type} {contexts contexts' : List Context}

/-- The second body is the core form of the first one. The parameters that the first body binds
later are bound by functions in the second. -/
structure Lexical.CoreForm (body : Lexical) (body' : Body) : Prop where
  later : body'.later = []
  code : ∃ binders core, List.Forall₂ (fun b names => b.boundNames = .ok names) binders body.later ∧
    body.tree.ValueForm core ∧ body'.tree = Tree.lambdas binders core

/-- The functions have the same parameters, the second has the core form of the first one's body,
and it was made in an environment that stands for the scope of the first. -/
structure Closure.Tracks (contexts : List Context) (c : Closure Lexical) (d : Closure Body) :
    Prop where
  params : c.params = d.params
  scope : contexts[d.env.index]? = some c.body.context
  body : c.body.CoreForm d.body

theorem Closure.Tracks.mono {c : Closure Lexical} {d : Closure Body}
    (h : Closure.Tracks contexts c d) (hmore : contexts <+: contexts') :
    Closure.Tracks contexts' c d :=
  { h with scope := getElem?_of_initial hmore h.scope }

/-- The values are the same up to functions, which correspond. -/
abbrev Lexical.Values (contexts : List Context) (v : Value Lexical) (w : Value Body) : Prop :=
  Value.Related (Closure.Tracks contexts) v w

theorem Lexical.Values.mono {v : Value Lexical} {w : Value Body} (h : Values contexts v w)
    (hmore : contexts <+: contexts') : Values contexts' v w :=
  Value.Related.mono (fun _ _ hcd => hcd.mono hmore) h

/-- The environment stands for the scope. -/
abbrev Lexical.Scope (contexts : List Context) (context : Context) (env : EnvId) : Prop :=
  contexts[env.index]? = some context

open Lexical (Values Scope)

/-- The environments stand for these scopes, and the same has been shown. -/
structure Store.Tracks (contexts : List Context) (store : Store Lexical) (store' : Store Body) :
    Prop where
  envs : Environments.Tracks (Closure.Tracks contexts) contexts store'.envs
  shown : List.Forall₂ (Values contexts) store.shown store'.shown

/-- Two answers are results that `Post` relates, the same error or no answer at all, and the same
has been shown, or else the second evaluation has run out of environments. Environments may have
been opened. -/
inductive Answer.Tracks (contexts : List Context) (Post : List Context → α → α' → Prop) :
    Answer Lexical α → Answer Body α' → Prop
  | value {more : List Context} {a : α} {a' : α'} {store : Store Lexical} {store' : Store Body} :
      contexts <+: more → Post more a a' → store.Tracks more store' →
      Tracks contexts Post (.value a store) (.value a' store')
  | failed {more : List Context} (error : Error) {store : Store Lexical} {store' : Store Body} :
      contexts <+: more → store.Tracks more store' →
      Tracks contexts Post (.failed error store) (.failed error store')
  | pending : Tracks contexts Post .pending .pending
  | exhausted {answer : Answer Lexical α} {store' : Store Body} :
      Tracks contexts Post answer (.failed (.machine .environmentsExhausted) store')

theorem Answer.Tracks.of_initial {Post : List Context → α → α' → Prop} {answer : Answer Lexical α}
    {answer' : Answer Body α'} (h : Answer.Tracks contexts' Post answer answer')
    (hmore : contexts <+: contexts') : Answer.Tracks contexts Post answer answer' := by
  cases h with
  | value hinitial ha hstore => exact .value (hmore.trans hinitial) ha hstore
  | failed error hinitial hstore => exact .failed error (hmore.trans hinitial) hstore
  | pending => exact .pending
  | exhausted => exact .exhausted

/-- In stores that correspond, two computations give answers that do. -/
def Computation.Tracks (contexts : List Context) (Post : List Context → α → α' → Prop)
    (c : Computation Lexical α) (c' : Computation Body α') : Prop :=
  ∀ store store', Store.Tracks contexts store store' →
    Answer.Tracks contexts Post (c.run store) (c'.run store')

namespace Computation

variable {Post : List Context → α → α' → Prop} {Post' : List Context → β → β' → Prop}

theorem Tracks.pure {a : α} {a' : α'} (h : Post contexts a a') :
    Tracks contexts Post (pure a : Computation Lexical α) (pure a') :=
  fun _ _ hstore => .value (List.prefix_refl _) h hstore

theorem Tracks.fail (error : Error) :
    Tracks contexts Post (fail error : Computation Lexical α) (fail error) :=
  fun _ _ hstore => .failed error (List.prefix_refl _) hstore

theorem Tracks.stopped :
    Tracks contexts Post (stopped : Computation Lexical α) (stopped : Computation Body α') :=
  fun _ _ _ => .pending

/-- One computation after the other. The first one may open environments. -/
theorem Tracks.bind {c : Computation Lexical α} {c' : Computation Body α'}
    {next : α → Computation Lexical β} {next' : α' → Computation Body β'}
    (h : Tracks contexts Post c c')
    (hnext : ∀ more a a', contexts <+: more → Post more a a' →
      Tracks more Post' (next a) (next' a')) :
    Tracks contexts Post' (c >>= next) (c' >>= next') := by
  intro store store' hstore
  have hfirst := h store store' hstore
  rw [run_bind, run_bind]
  generalize c.run store = answer at hfirst ⊢
  generalize c'.run store' = answer' at hfirst ⊢
  cases hfirst with
  | value hmore ha hstore' => exact (hnext _ _ _ hmore ha _ _ hstore').of_initial hmore
  | failed error hmore hstore' => exact .failed error hmore hstore'
  | pending => exact .pending
  | exhausted => exact .exhausted

theorem Tracks.ofResult {r : Except Error α} {r' : Except Error α'}
    (h : Agree (Post contexts) r r') : Tracks contexts Post (ofResult r) (ofResult r') := by
  cases h with
  | ok ha => exact .pure ha
  | error e _ => exact .fail e

theorem display_tracks {values : List (Value Lexical)} {values' : List (Value Body)}
    (h : List.Forall₂ (Values contexts) values values') :
    Tracks contexts (fun _ _ _ => True) (display values) (display values') :=
  fun _ _ hstore => .value (List.prefix_refl _) trivial
    ⟨hstore.envs, List.rel_append h hstore.shown⟩

theorem call_tracks (b : Builtin) {received : List (Value Lexical)}
    {received' : List (Value Body)}
    (hreceived : List.Forall₂ (Values contexts) received received') {a : Value Lexical}
    {a' : Value Body} (ha : Values contexts a a') :
    Tracks contexts Values (call b received a) (call b received' a') :=
  (display_tracks (b.shown_forall₂ ha)).bind fun _ _ _ hmore _ =>
    .ofResult (b.apply_agree (hreceived.imp fun _ _ hvw => Values.mono hvw hmore)
      (Values.mono ha hmore))

end Computation

namespace Lexical

open EagerLambda.Computation (Tracks)

theorem lookup_tracks {context : Context} {env : EnvId} (hscope : Scope contexts context env)
    (name : Name) : Tracks contexts Values (lookup context name) (resolve env name) := by
  intro store store' hstore
  have hlookup := hstore.envs.lookup_rel hscope name
  simp only [lookup, resolve, Environments.resolve]
  generalize context.lookup name = v at hlookup ⊢
  generalize store'.envs.lookup env name = w at hlookup ⊢
  cases hlookup with
  | some hvw => exact Tracks.pure hvw _ _ hstore
  | none => exact Tracks.fail _ _ _ hstore

/-- An environment is opened for the bindings by which a scope is extended. -/
theorem openWith_tracks {context : Context} {env : EnvId} (hscope : Scope contexts context env)
    {bindings : List (Binding Lexical)} {bindings' : List (Binding Body)}
    (h : List.Forall₂ (BindingRelated (Closure.Tracks contexts)) bindings bindings') :
    Tracks contexts Scope (pure (bindings.reverse ++ context)) (openWith env bindings') := by
  intro store store' hstore
  have hlt : env.index < store'.envs.size :=
    hstore.envs.size ▸ (List.getElem?_eq_some_iff.1 hscope).1
  have hmore : contexts <+: contexts ++ [bindings.reverse ++ context] := List.prefix_append _ _
  simp only [openWith, Environments.open?, Environments.openFault?, if_neg (Nat.not_le.2 hlt)]
  by_cases hlimit : handleLimit ≤ store'.envs.size
  · rw [if_pos hlimit]
    exact .exhausted
  · rw [if_neg hlimit]
    refine .value hmore ?_ ⟨?_, hstore.shown.imp fun _ _ hvw => Values.mono hvw hmore⟩
    · rw [Environments.nextId, hstore.envs.size]
      exact List.getElem?_concat_length
    · exact hstore.envs.push (fun _ _ hcd => hcd.mono hmore) hscope
        (h.imp fun _ _ hbc => ⟨hbc.1, Values.mono hbc.2 hmore⟩)

/-- The scope of parameters that are bound to related arguments. -/
theorem extend_tracks {context : Context} {env : EnvId} (hscope : Scope contexts context env)
    (params : List Name) {a : Value Lexical} {a' : Value Body} (ha : Values contexts a a') :
    Tracks contexts Scope (extend context params a) (openScope params a' env) := by
  have hbindings : Tracks contexts
      (fun contexts => List.Forall₂ (BindingRelated (Closure.Tracks contexts)))
      (ofResult (parameterBindings params a)) (ofResult (parameterBindings params a')) :=
    .ofResult (parameterBindings_agree params ha)
  exact hbindings.bind fun more bs bs' hmore hb =>
    openWith_tracks (getElem?_of_initial hmore hscope) hb

/-- What happens inside functions that correspond does too. The function that a recursive function
is applied like has to be made in the evaluation with environments before it can be applied. -/
structure Inner.Tracks (inner : Inner) (deeper : Deeper) : Prop where
  enter {contexts : List Context} {body : Lexical} {body' : Body} {env : EnvId} :
    Scope contexts body.context env → body.CoreForm body' →
    Computation.Tracks contexts Values (inner.enter body) (deeper.enter env body')
  apply {contexts : List Context} {f a : Value Lexical} {f' a' : Value Body} :
    Values contexts f f' → Values contexts a a' →
    Computation.Tracks contexts Values (inner.apply f a) (deeper.apply f' a')
  unfold {contexts : List Context} {params : List Name} {later : List (List Name)} {tree : Tree}
    {context : Context} {body' : Body} {env : EnvId} {a : Value Lexical} {a' : Value Body} :
    Scope contexts context env → CoreForm ⟨params :: later, tree, context⟩ body' →
    Values contexts a a' →
    Computation.Tracks contexts Values
      (inner.apply (.closure (close params ⟨later, tree, context⟩)) a)
      (deeper.enter env body' >>= fun f => deeper.apply f a')

variable {inner : Inner} {deeper : Deeper}

theorem select_tracks {vs : List (Value Lexical)} {ws : List (Value Body)}
    (hvs : List.Forall₂ (Values contexts) vs ws) {a : Value Lexical} {a' : Value Body}
    (ha : Values contexts a a') (inner : Inner) (deeper : Deeper) :
    Tracks contexts Values (applyWith inner (.tuple vs) a)
      (EagerLambda.applyWith deeper (.tuple ws) a') := by
  cases hvs with
  | nil => exact .fail _
  | @cons v w vs ws hv hvs =>
    cases ha with
    | integer i =>
      have hcomponent := Machine.State.component?_rel (.cons hv hvs) i
      simp only [applyWith, EagerLambda.applyWith]
      generalize Machine.State.component? (v :: vs) i = r at hcomponent
      generalize Machine.State.component? (w :: ws) i = r' at hcomponent
      cases hcomponent with
      | none =>
        have hlength : (v :: vs).length = (w :: ws).length := by simp [hvs.length_eq]
        rw [hlength]
        exact .fail _
      | some hvw => exact .pure hvw
    | _ => exact .fail _

/-- A recursive function is applied like the function that its equation makes. -/
theorem applyEta_tracks (hinner : inner.Tracks deeper) {c : Closure Lexical} {d : Closure Body}
    (hcd : c.Tracks contexts d) {a : Value Lexical} {a' : Value Body}
    (ha : Values contexts a a') :
    Tracks contexts Values (applyWith inner (.eta c) a)
      (EagerLambda.applyWith deeper (.eta d) a') := by
  obtain ⟨⟨later, tree, outer⟩, params, env⟩ := c
  simp only [applyWith, EagerLambda.applyWith, ← hcd.params]
  refine (extend_tracks hcd.scope params (.eta hcd)).bind ?_
  intro more context env hmore hscope
  have ha' := Values.mono ha hmore
  cases later with
  | nil =>
    have hbody : CoreForm ⟨[], tree, context⟩ d.body := ⟨hcd.body.later, hcd.body.code⟩
    exact (hinner.enter hscope hbody).bind fun more' f f' hmore' hf =>
      hinner.apply hf (Values.mono ha' hmore')
  | cons params' later => exact hinner.unfold hscope ⟨hcd.body.later, hcd.body.code⟩ ha'

/-- Related values are applied alike. -/
theorem applyWith_tracks (hinner : inner.Tracks deeper) {f a : Value Lexical}
    {f' a' : Value Body} (hf : Values contexts f f') (ha : Values contexts a a') :
    Tracks contexts Values (applyWith inner f a) (EagerLambda.applyWith deeper f' a') := by
  cases hf with
  | @closure c d hcd =>
    simp only [applyWith, EagerLambda.applyWith, hcd.params]
    refine (extend_tracks hcd.scope d.params ha).bind ?_
    intro more context env hmore hscope
    exact hinner.enter hscope ⟨hcd.body.later, hcd.body.code⟩
  | eta hcd => exact applyEta_tracks hinner hcd ha
  | tuple hvs => exact select_tracks hvs ha inner deeper
  | fixpoint =>
    cases ha with
    | closure hcd => exact .pure (.eta hcd)
    | _ => exact .fail _
  | builtin b => exact call_tracks b .nil ha
  | partialApp b hvs => exact call_tracks b hvs ha
  | _ => exact .fail _

end Lexical

end EagerLambda
