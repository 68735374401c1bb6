import EagerLambda.Proofs.Tree.Rename

/-!
# Hygiene of desugaring

A tree with a binder renamed has a core form whenever the tree has one, and the two core forms are
the same up to names. The construct that is special is the recursive definition, since it is
expanded with an identifier that does not occur in the program.

## Main definitions

- `Tree.Renamed` — the core forms of a subtree before and after the renaming

## Main statements

- `Tree.renamed` — renaming a binder changes the core form of a tree by names only
-/

namespace EagerLambda

open Construct

namespace Tree

variable {root : Tree} {binder site : Site} {name : Name} {scope : Binders}

/-- After the renaming, the subtree at `site` has a core form. It is the same as `core` up to names
exactly if the recursive definitions in the subtree are stable. -/
def CoreRenamed (root : Tree) (binder : Site) (name : Name) (site : Site) (scope : Binders)
    (tree core : Tree) : Prop :=
  ∃ core', (tree.mapNames (root.renamedName binder name) site).Desugars core' ∧
    (Alpha (.renaming name) (scope.pairing binder name) core core' ↔
      root.StableBelow binder name site)

/-- After the renaming, the definition at `site` binds what `bound` binds. Its value is the same as
`value` up to names exactly if the recursive definitions in the subtree are stable. -/
def DefinitionRenamed (root : Tree) (binder : Site) (name : Name) (site : Site) (scope : Binders)
    (tree bound value : Tree) : Prop :=
  ∃ bound' value',
    (tree.mapNames (root.renamedName binder name) site).Desugars (define bound' value') ∧
      BinderRenamed binder name (tree.boundAt site) bound bound' ∧
      (Alpha (.renaming name) (scope.pairing binder name) value value' ↔
        root.StableBelow binder name site)

/-- What the renaming makes of the core form of the subtree at `site`. -/
structure Renamed (root : Tree) (binder : Site) (name : Name) (site : Site) (scope : Binders)
    (tree : Tree) : Prop where
  core {core : Tree} : tree.Desugars core → core.Core →
    CoreRenamed root binder name site scope tree core
  definition {bound value : Tree} {xs : List Name} : tree.Desugars (define bound value) →
    bound.boundNames = .ok xs → value.Core →
    DefinitionRenamed root binder name site scope tree bound value

/-- What the renaming makes of the core forms of the children of the node at `site`. -/
def ChildrenRenamed (root : Tree) (binder : Site) (name : Name) (site : Site) (scope : Binders)
    (tree : Tree) : Prop :=
  ∀ i t inner, tree.children[i]? = some t → tree.childScope site (some scope) i = some inner →
    Renamed root binder name (i :: site) inner t

/-- The renaming changes the core forms of trees in the same scope by names only. -/
theorem renamedAll {trees cores : List Tree} {index : Nat}
    (ih : ∀ i t, trees[i]? = some t → Renamed root binder name ((index + i) :: site) scope t)
    (h : List.Forall₂ Desugars trees cores) (hcores : ∀ core ∈ cores, core.Core) :
    ∃ cores', List.Forall₂ Desugars
        (mapNamesFrom (root.renamedName binder name) site index trees) cores' ∧
      (List.Forall₂ (Alpha (.renaming name) (scope.pairing binder name)) cores cores' ↔
        root.StableFrom binder name site index trees) := by
  induction h generalizing index with
  | nil => exact ⟨[], .nil, ⟨fun _ => trivial, fun _ => .nil⟩⟩
  | @cons tree core trees cores hfirst _ ihRest =>
    obtain ⟨core', hfirst', halpha⟩ := (ih 0 tree rfl).core hfirst (hcores core (by simp))
    have ihTail : ∀ i t, trees[i]? = some t →
        Renamed root binder name ((index + 1 + i) :: site) scope t := by
      intro i t ht
      have htail := ih (i + 1) t (by simpa using ht)
      rwa [show index + 1 + i = index + (i + 1) by omega]
    obtain ⟨cores', hrest', halphas⟩ := ihRest ihTail fun c hc => hcores c (by simp [hc])
    refine ⟨core' :: cores', .cons hfirst' hrest', ?_⟩
    rw [List.forall₂_cons, halpha, halphas]
    rfl

theorem coreRenamed_atom (hfresh : name ∉ root.names) (a : Atom)
    (hat : root.at? site = some (leaf a)) (hscope : root.scopeAt site = some scope) :
    CoreRenamed root binder name site scope (leaf a) (leaf a) := by
  have hstable : root.StableBelow binder name site := (stableBelow_node hat (by simp)).2 trivial
  cases a with
  | identifier x =>
    refine ⟨_, desugars_identifier _, iff_of_true (.identifier ?_) hstable⟩
    exact relates_renamedName hfresh hat hscope
  | integer n => exact ⟨_, ⟨0, rfl⟩, iff_of_true (.constant (by simp)) hstable⟩
  | string text => exact ⟨_, ⟨0, rfl⟩, iff_of_true (.constant (by simp)) hstable⟩
  | truth b => exact ⟨_, ⟨0, rfl⟩, iff_of_true (.constant (by simp)) hstable⟩
  | nil => exact ⟨_, ⟨0, rfl⟩, iff_of_true (.constant (by simp)) hstable⟩
  | dummy => exact ⟨_, ⟨0, rfl⟩, iff_of_true (.constant (by simp)) hstable⟩

/-- The parameters and the body of a function, the children of the node at `site` from an index
on. -/
theorem curry_renamed {tree core : Tree} {trees cores : List Tree} {index : Nat}
    (hchildren : root.HasChildren site index (tree :: trees))
    (hparams : ∀ i < trees.length, root.scopeAt ((index + i) :: site) = none)
    (hbody : ∀ t, (tree :: trees).getLast? = some t →
      Renamed root binder name ((index + trees.length) :: site)
        ((patternsFrom site index (tree :: trees).dropLast).reverse ++ scope) t)
    (hfirst : tree.Desugars core) (hrest : List.Forall₂ Desugars trees cores)
    (hcore : (curry core cores).Core) :
    ∃ core' cores', List.Forall₂ Desugars
        (mapNamesFrom (root.renamedName binder name) site index (tree :: trees))
        (core' :: cores') ∧ cores'.length = cores.length ∧
      (Alpha (.renaming name) (scope.pairing binder name) (curry core cores)
          (curry core' cores') ↔
        root.StableFrom binder name site index (tree :: trees)) := by
  -- Each parameter list is a binder in no scope and adds its names to the scope of the body, which
  -- comes last.
  induction hrest generalizing tree core index scope with
  | nil =>
    obtain ⟨core', hdesugars, halpha⟩ := (hbody tree rfl).core hfirst hcore
    refine ⟨core', [], .cons hdesugars .nil, rfl, ?_⟩
    rw [StableFrom, StableFrom, and_true]
    exact halpha
  | @cons second core₂ trees cores hsecond hothers ih =>
    rw [curry] at hcore
    cases hcore with
    | lambda hxs hinner =>
      obtain rfl := eq_of_desugars_bound hfirst hxs
      obtain ⟨hbinder, hdesugars⟩ := pattern_renamed binder name
        hchildren.head (hparams 0 (by simp)) hxs
      have hparams' : ∀ i < trees.length, root.scopeAt ((index + 1 + i) :: site) = none := by
        intro i hi
        have hparam := hparams (i + 1) (by simpa using hi)
        rwa [show index + 1 + i = index + (i + 1) by omega]
      have hbody' : ∀ t, (second :: trees).getLast? = some t →
          Renamed root binder name ((index + 1 + trees.length) :: site)
            ((patternsFrom site (index + 1) (second :: trees).dropLast).reverse ++
              ((core.patternAt (index :: site)).reverse ++ scope)) t := by
        intro t ht
        have hlast := hbody t (by rwa [List.getLast?_cons_cons])
        rw [List.dropLast_cons_cons, patternsFrom, List.reverse_append, List.append_assoc,
          List.length_cons] at hlast
        rwa [show index + 1 + trees.length = index + (trees.length + 1) by omega]
      obtain ⟨core', cores', hdesugars', hlength, halpha⟩ :=
        ih hchildren.tail hparams' hbody' hsecond hinner
      refine ⟨_, core' :: cores', .cons hdesugars hdesugars', by simp [hlength], ?_⟩
      have hstable : root.StableBelow binder name (index :: site) :=
        stableBelow_of_scopeAt (hparams 0 (by simp))
      rw [StableFrom, and_iff_right hstable, ← halpha]
      exact hbinder.alpha_lambda_iff

/-- Definitions that are made at the same time. -/
theorem definitions_renamed {trees binders values : List Tree} {index : Nat} {xs : List Name}
    (ih : ∀ i t, trees[i]? = some t → Renamed root binder name ((index + i) :: site) scope t)
    (h : List.Forall₂ Desugars trees (List.zipWith define binders values))
    (hlength : binders.length = values.length) (hxs : parameterNames binders = .ok xs)
    (hvalues : ∀ value ∈ values, value.Core) :
    ∃ binders' values', binders'.length = binders.length ∧ binders'.length = values'.length ∧
      List.Forall₂ Desugars (mapNamesFrom (root.renamedName binder name) site index trees)
        (List.zipWith define binders' values') ∧
      xs = (boundFrom site index trees).map Prod.fst ∧
      parameterNames binders' =
        .ok ((Binders.rename binder name (boundFrom site index trees)).map Prod.fst) ∧
      (List.Forall₂ (Alpha (.renaming name) (scope.pairing binder name)) values values' ↔
        root.StableFrom binder name site index trees) := by
  induction binders generalizing trees values index xs with
  | nil =>
    obtain rfl : values = [] := List.length_eq_zero_iff.1 hlength.symm
    cases h
    cases hxs
    exact ⟨[], [], rfl, rfl, .nil, rfl, rfl, ⟨fun _ => trivial, fun _ => .nil⟩⟩
  | cons b bs ihRest =>
    obtain ⟨v, vs, rfl⟩ := List.exists_cons_of_length_eq_add_one hlength.symm
    obtain _ | @⟨tree, _, trees, _, hfirst, hrest⟩ := h
    rw [parameterNames] at hxs
    cases hx : b.name? with
    | none =>
      rw [hx] at hxs
      cases hxs
    | some x =>
      rw [hx] at hxs
      obtain ⟨ys, hys, hxs⟩ := bind_eq_ok.1 hxs
      cases hxs
      obtain rfl := name?_eq_some.1 hx
      have ihTail : ∀ i t, trees[i]? = some t →
          Renamed root binder name ((index + 1 + i) :: site) scope t := by
        intro i t ht
        have htail := ih (i + 1) t (by simpa using ht)
        rwa [show index + 1 + i = index + (i + 1) by omega]
      obtain ⟨b', v', hfirst', hbinder, halpha⟩ :=
        (ih 0 tree rfl).definition hfirst rfl (hvalues v (by simp))
      obtain ⟨bs', vs', hcount, hcount', hrest', hnames, hnames', halphas⟩ :=
        ihRest ihTail hrest (by simpa using hlength) hys fun w hw => hvalues w (by simp [hw])
      obtain ⟨y, hy⟩ := hbinder.single hx
      obtain rfl := name?_eq_some.1 hy
      have hbound : [x] = (tree.boundAt (index :: site)).map Prod.fst :=
        Except.ok.inj hbinder.names
      have hbound' : [y] =
          (Binders.rename binder name (tree.boundAt (index :: site))).map Prod.fst :=
        Except.ok.inj hbinder.names'
      refine ⟨_ :: bs', v' :: vs', by simp [hcount], by simp [hcount'], .cons hfirst' hrest', ?_,
        ?_, ?_⟩
      · rw [boundFrom, List.map_append, ← hbound, hnames]
        rfl
      · rw [boundFrom, Binders.rename, List.map_append, List.map_append]
        rw [Binders.rename] at hbound' hnames'
        rw [← hbound']
        exact bind_eq_ok.2 ⟨_, hnames', rfl⟩
      · rw [List.forall₂_cons, halpha, halphas]
        rfl

variable {label : Label} {children : List Tree} {core : Tree}

/-- The parameters and the body of a function, the children of a node from an index on. -/
theorem function_renamed {index : Nat} {tree : Tree} {trees : List Tree}
    (hat : root.at? site = some (node label children)) (hscope : root.scopeAt site = some scope)
    (child : ChildrenRenamed root binder name site scope (node label children))
    (hparts : children.drop index = tree :: trees)
    (hscopes : ∀ i, (node label children).childScope site (some scope) (index + i) =
      if i = trees.length then
        extendScope (some scope) (patternsFrom site index (tree :: trees).dropLast)
      else none)
    {cores : List Tree} (hfirst : tree.Desugars core) (hrest : List.Forall₂ Desugars trees cores)
    (hcore : (curry core cores).Core) :
    ∃ core' cores', List.Forall₂ Desugars
        (mapNamesFrom (root.renamedName binder name) site index (tree :: trees))
        (core' :: cores') ∧ cores'.length = cores.length ∧
      (Alpha (.renaming name) (scope.pairing binder name) (curry core cores)
          (curry core' cores') ↔
        root.StableFrom binder name site index (tree :: trees)) := by
  have hpart : ∀ i t, (tree :: trees)[i]? = some t → children[index + i]? = some t := by
    intro i t ht
    rwa [← List.getElem?_drop, hparts]
  refine curry_renamed (fun i t ht => at?_cons hat (hpart i t ht)) (fun i hi => ?_)
    (fun t ht => ?_) hfirst hrest hcore
  · rw [scopeAt_cons hat, hscope, hscopes, if_neg (by omega)]
  · rw [List.getLast?_eq_getElem?] at ht
    refine child _ t _ (hpart _ t ht) ?_
    rw [hscopes, if_pos rfl]
    rfl

/-- The children of a construct that are all in its own scope. -/
theorem renamed_children
    (child : ChildrenRenamed root binder name site scope (node label children))
    (hscopes : ∀ i, (node label children).childScope site (some scope) i = some scope)
    (i : Nat) (t : Tree) (ht : children[i]? = some t) :
    Renamed root binder name ((0 + i) :: site) scope t := by
  rw [Nat.zero_add]
  exact child i t scope ht (hscopes i)

/-- The binder that is the first child of a construct, in no scope. -/
theorem pattern_renamed_head {bound core : Tree} {trees : List Tree} {xs : List Name}
    (hat : root.at? site = some (node label (bound :: trees)))
    (hnone : (node label (bound :: trees)).childScope site (root.scopeAt site) 0 = none)
    (h : bound.Desugars core) (hxs : core.boundNames = .ok xs) :
    ∃ bound', (bound.mapNames (root.renamedName binder name) (0 :: site)).Desugars bound' ∧
      BinderRenamed binder name (bound.patternAt (0 :: site)) core bound' ∧
      root.StableBelow binder name (0 :: site) := by
  obtain rfl := eq_of_desugars_bound h hxs
  have hscope : root.scopeAt (0 :: site) = none := by rw [scopeAt_cons hat, hnone]
  obtain ⟨hbinder, hdesugars⟩ := pattern_renamed binder name (hasChildren hat).head hscope hxs
  exact ⟨_, hdesugars, hbinder, stableBelow_of_scopeAt hscope⟩

/-- A function of one parameter or more. -/
theorem coreRenamed_lambda (hat : root.at? site = some (of .lambda children))
    (hscope : root.scopeAt site = some scope)
    (child : ChildrenRenamed root binder name site scope (of .lambda children))
    {first second : Tree} {rest : List Tree}
    (hcores : List.Forall₂ Desugars children (first :: second :: rest))
    (hcore : (curry first (second :: rest)).Core) :
    CoreRenamed root binder name site scope (of .lambda children)
      (curry first (second :: rest)) := by
  obtain ⟨tree, trees, rfl⟩ := List.exists_cons_of_length_eq_add_one hcores.length_eq
  obtain _ | ⟨hfirst, hrest⟩ := hcores
  have hscopes : ∀ i, (of .lambda (tree :: trees)).childScope site (some scope) (0 + i) =
      if i = trees.length then
        extendScope (some scope) (patternsFrom site 0 (tree :: trees).dropLast)
      else none := by
    intro i
    show (if 0 + i + 1 = (tree :: trees).length then _ else none) = _
    simp
  obtain ⟨core', cores', hcores', hlength, halpha⟩ :=
    function_renamed hat hscope child rfl hscopes hfirst hrest hcore
  obtain ⟨second', rest', rfl⟩ := List.exists_cons_of_length_eq_add_one hlength
  refine ⟨_, desugars_lambda hcores', ?_⟩
  rw [halpha, stableBelow_node hat (by simp)]

section

variable {c : Construct} {cores : List Tree} (hat : root.at? site = some (of c children))
  (hscope : root.scopeAt site = some scope)
  (child : ChildrenRenamed root binder name site scope (of c children))
  (hcores : List.Forall₂ Desugars children cores)

include hat hscope child hcores

/-- A construct that is core already. -/
theorem coreRenamed_of_core (hcore : (of c cores).Core) :
    CoreRenamed root binder name site scope (of c children) (of c cores) := by
  cases c with
  | gamma =>
    cases hcore with
    | gamma hfunctionCore hargumentCore =>
      obtain _ | ⟨hfunction, _ | ⟨hargument, _ | _⟩⟩ := hcores
      obtain ⟨function', hfunction', hf⟩ := (child 0 _ scope rfl rfl).core hfunction hfunctionCore
      obtain ⟨argument', hargument', ha⟩ := (child 1 _ scope rfl rfl).core hargument hargumentCore
      refine ⟨apply function' argument', .core (.cons hfunction' (.cons hargument' .nil)) rfl, ?_⟩
      refine alpha_gamma_iff.trans ?_
      rw [hf, ha, stableBelow_node hat (by simp), stableFrom_two]
  | tau =>
    cases hcore with
    | tau hcomponents =>
      obtain ⟨cores', hcores', halphas⟩ :=
        renamedAll (renamed_children child fun _ => rfl) hcores hcomponents
      refine ⟨_, .core hcores' rfl, ?_⟩
      rw [alpha_tau_iff, halphas, stableBelow_node hat (by simp)]
  | conditional =>
    cases hcore with
    | conditional hconditionCore hthenCore helseCore =>
      obtain _ | ⟨hcondition, _ | ⟨hthen, _ | ⟨helse, _ | _⟩⟩⟩ := hcores
      obtain ⟨condition', hcondition', hc⟩ :=
        (child 0 _ scope rfl rfl).core hcondition hconditionCore
      obtain ⟨thenTree', hthen', ht⟩ := (child 1 _ scope rfl rfl).core hthen hthenCore
      obtain ⟨elseTree', helse', he⟩ := (child 2 _ scope rfl rfl).core helse helseCore
      refine ⟨_, .core (.cons hcondition' (.cons hthen' (.cons helse' .nil))) rfl, ?_⟩
      rw [alpha_conditional_iff, hc, ht, he, stableBelow_node hat (by simp), stableFrom_three]
  | lambda =>
    cases hcore with
    | lambda hxs hbody => exact coreRenamed_lambda hat hscope child hcores (.lambda hxs hbody)
  | _ => cases hcore

/-- An abbreviation of a core tree that has a value of its own. -/
theorem coreRenamed_of_expands (hexpands : c.Expands cores core) (hcore : core.Core) :
    CoreRenamed root binder name site scope (of c children) core := by
  cases hexpands with
  | letIn bound value body =>
    obtain _ | ⟨hequation, _ | ⟨hbody, _ | _⟩⟩ := hcores
    cases hcore with
    | gamma hfunction hvalueCore =>
      cases hfunction with
      | lambda hxs hbodyCore =>
        obtain ⟨bound', value', hequation', hbinder, hv⟩ :=
          (child 0 _ scope rfl rfl).definition hequation hxs hvalueCore
        obtain ⟨body', hbody', hb⟩ := (child 1 _ _ rfl rfl).core hbody hbodyCore
        refine ⟨_, .expand (.cons hequation' (.cons hbody' .nil)) rfl, ?_⟩
        rw [alpha_gamma_iff, hbinder.alpha_lambda_iff, hb, hv, stableBelow_node hat (by simp),
          stableFrom_two, and_comm]
  | whereIn body bound value =>
    obtain _ | ⟨hbody, _ | ⟨hequation, _ | _⟩⟩ := hcores
    cases hcore with
    | gamma hfunction hvalueCore =>
      cases hfunction with
      | lambda hxs hbodyCore =>
        obtain ⟨bound', value', hequation', hbinder, hv⟩ :=
          (child 1 _ scope rfl rfl).definition hequation hxs hvalueCore
        obtain ⟨body', hbody', hb⟩ := (child 0 _ _ rfl rfl).core hbody hbodyCore
        refine ⟨_, .expand (.cons hbody' (.cons hequation' .nil)) rfl, ?_⟩
        rw [alpha_gamma_iff, hbinder.alpha_lambda_iff, hb, hv, stableBelow_node hat (by simp),
          stableFrom_two]
  | between left function right =>
    obtain _ | ⟨hleft, _ | ⟨hfunction, _ | ⟨hright, _ | _⟩⟩⟩ := hcores
    cases hcore with
    | gamma happlied hrightCore =>
      cases happlied with
      | gamma hfunctionCore hleftCore =>
        obtain ⟨left', hleft', hl⟩ := (child 0 _ scope rfl rfl).core hleft hleftCore
        obtain ⟨function', hfunction', hf⟩ :=
          (child 1 _ scope rfl rfl).core hfunction hfunctionCore
        obtain ⟨right', hright', hr⟩ := (child 2 _ scope rfl rfl).core hright hrightCore
        refine ⟨_, .expand (.cons hleft' (.cons hfunction' (.cons hright' .nil))) rfl, ?_⟩
        rw [alpha_gamma_iff, alpha_gamma_iff, hl, hf, hr, stableBelow_node hat (by simp),
          stableFrom_three, and_comm (b := root.StableBelow binder name (0 :: site)), and_assoc]
  | lambda first second third rest => exact coreRenamed_lambda hat hscope child hcores hcore
  | functionForm | simultaneous | within | recursive => cases hcore

variable {bound value : Tree} {xs : List Name}

/-- A construct that defines something. -/
theorem definitionRenamed_of_expands (hexpands : c.Expands cores (define bound value))
    (hxs : bound.boundNames = .ok xs) (hvalue : value.Core) :
    DefinitionRenamed root binder name site scope (of c children) bound value := by
  cases hexpands with
  | functionForm bound first second rest =>
    obtain _ | @⟨pattern, _, _, _, hpattern, hparts⟩ := hcores
    obtain _ | @⟨tree, _, trees, _, hfirst, hothers⟩ := hparts
    obtain ⟨bound', hpattern', hbinder, hstable⟩ := pattern_renamed_head hat rfl hpattern hxs
    have hscopes : ∀ i, (of .functionForm (pattern :: tree :: trees)).childScope site
        (some scope) (1 + i) = if i = trees.length then
          extendScope (some scope) (patternsFrom site 1 (tree :: trees).dropLast)
        else none := by
      intro i
      show (if 1 + i = (tree :: trees).length then _ else none) = _
      simp [Nat.add_comm 1 i]
    obtain ⟨core', cores', hcores', hlength, halpha⟩ :=
      function_renamed hat hscope child rfl hscopes hfirst hothers hvalue
    obtain ⟨second', rest', rfl⟩ := List.exists_cons_of_length_eq_add_one hlength
    refine ⟨bound', _, .expand (.cons hpattern' hcores') rfl, hbinder, ?_⟩
    rw [stableBelow_node hat (by simp), StableFrom, and_iff_right hstable, ← halpha]
    rfl
  | simultaneous hlength =>
    cases hvalue with
    | tau hvalues =>
      obtain ⟨binders', values', hcount, hcount', hcores', hnames, hnames', halphas⟩ :=
        definitions_renamed (renamed_children child fun _ => rfl) hcores hlength hxs hvalues
      obtain ⟨first', others', rfl⟩ := List.exists_cons_of_length_eq_add_one hcount
      obtain ⟨second', rest', rfl⟩ :=
        List.exists_cons_of_length_eq_add_one (Nat.succ.inj hcount)
      subst hnames
      refine ⟨_, _, .expand hcores' (expand_simultaneous hcount'),
        ⟨hxs, hnames', fun hname => by cases hname⟩, ?_⟩
      rw [alpha_tau_iff, halphas, stableBelow_node hat (by simp)]
  | within outerBound outerValue bound innerValue =>
    obtain _ | ⟨houter, _ | ⟨hinner, _ | _⟩⟩ := hcores
    cases hvalue with
    | gamma hfunction houterValue =>
      cases hfunction with
      | lambda hys hinnerValue =>
        obtain ⟨outerBound', outerValue', houter', hbinder, ho⟩ :=
          (child 0 _ scope rfl rfl).definition houter hys houterValue
        obtain ⟨innerBound', innerValue', hinner', hbinder', hi⟩ :=
          (child 1 _ _ rfl rfl).definition hinner hxs hinnerValue
        refine ⟨innerBound', _, .expand (.cons houter' (.cons hinner' .nil)) rfl, hbinder', ?_⟩
        rw [alpha_gamma_iff, hbinder.alpha_lambda_iff, hi, ho, stableBelow_node hat (by simp),
          stableFrom_two, and_comm]
  | recursive bound innerValue =>
    obtain _ | ⟨hequation, _ | _⟩ := hcores
    cases hvalue with
    | gamma _ hfunction =>
      cases hfunction with
      | lambda hys hinnerValue =>
        obtain ⟨bound', value', hequation', hbinder, hv⟩ :=
          (child 0 _ _ rfl rfl).definition hequation hys hinnerValue
        refine ⟨bound', _, .expand (.cons hequation' .nil) rfl, hbinder, ?_⟩
        -- The identifier that stands for the fixed point is the only one that is not in the tree.
        rw [alpha_gamma_iff, alpha_identifier_iff, hbinder.alpha_lambda_iff, hv,
          relates_fixpoint_iff hat hscope, stableBelow_recursive hat]

end

theorem coreRenamed_of_desugars (hfresh : name ∉ root.names)
    (hat : root.at? site = some (node label children)) (hscope : root.scopeAt site = some scope)
    (child : ChildrenRenamed root binder name site scope (node label children))
    (h : (node label children).Desugars core) (hcore : core.Core) :
    CoreRenamed root binder name site scope (node label children) core := by
  cases label with
  | atom a =>
    obtain rfl := desugars_atom h
    cases hcore
    exact coreRenamed_atom hfresh a hat hscope
  | binary op =>
    obtain ⟨cores, hcores, rfl⟩ := desugars_binary h
    cases hcore with
    | binary _ hleftCore hrightCore =>
      obtain _ | ⟨hleft, _ | ⟨hright, _ | _⟩⟩ := hcores
      obtain ⟨left', hleft', hl⟩ := (child 0 _ scope rfl rfl).core hleft hleftCore
      obtain ⟨right', hright', hr⟩ := (child 1 _ scope rfl rfl).core hright hrightCore
      refine ⟨_, .binary (.cons hleft' (.cons hright' .nil)), ?_⟩
      rw [alpha_binary_iff, hl, hr, stableBelow_node hat (by simp), stableFrom_two]
  | unary op =>
    obtain ⟨cores, hcores, rfl⟩ := desugars_unary h
    cases hcore with
    | unary _ hoperandCore =>
      obtain _ | ⟨hoperand, _ | _⟩ := hcores
      obtain ⟨operand', hoperand', ho⟩ := (child 0 _ scope rfl rfl).core hoperand hoperandCore
      refine ⟨_, .unary (.cons hoperand' .nil), ?_⟩
      rw [alpha_unary_iff, ho, stableBelow_node hat (by simp), stableFrom_one]
  | construct c =>
    obtain ⟨cores, hcores, ⟨-, rfl⟩ | hexpands⟩ := desugars_construct h
    · exact coreRenamed_of_core hat hscope child hcores hcore
    · exact coreRenamed_of_expands hat hscope child hcores hexpands hcore

theorem definitionRenamed_of_desugars {bound value : Tree} {xs : List Name}
    (hat : root.at? site = some (node label children)) (hscope : root.scopeAt site = some scope)
    (child : ChildrenRenamed root binder name site scope (node label children))
    (h : (node label children).Desugars (define bound value)) (hxs : bound.boundNames = .ok xs)
    (hvalue : value.Core) :
    DefinitionRenamed root binder name site scope (node label children) bound value := by
  obtain ⟨c, cores, rfl, hcores, ⟨rfl, rfl⟩ | hexpands⟩ := desugars_define h
  · obtain _ | ⟨hpattern, _ | ⟨hinner, _ | _⟩⟩ := hcores
    obtain ⟨bound', hpattern', hbinder, hstable⟩ := pattern_renamed_head hat rfl hpattern hxs
    obtain ⟨value', hinner', hv⟩ := (child 1 _ scope rfl rfl).core hinner hvalue
    refine ⟨bound', value', .core (.cons hpattern' (.cons hinner' .nil)) rfl, hbinder, ?_⟩
    rw [hv, stableBelow_node hat (by simp), stableFrom_two, and_iff_right hstable]
  · exact definitionRenamed_of_expands hat hscope child hcores hexpands hxs hvalue

/-- Renaming a binder to a name that does not occur in the program keeps the core form of a
subtree, up to names, exactly if the recursive definitions in it are stable. -/
theorem renamed (hfresh : name ∉ root.names) {tree : Tree} (hat : root.at? site = some tree)
    (hscope : root.scopeAt site = some scope) : Renamed root binder name site scope tree := by
  induction tree using children_induction generalizing site scope with
  | node label children ih =>
    have child : ChildrenRenamed root binder name site scope (node label children) := by
      intro i t inner ht hinner
      refine ih t (List.mem_of_getElem? ht) (at?_cons hat ht) ?_
      rw [scopeAt_cons hat, hscope, hinner]
    exact ⟨coreRenamed_of_desugars hfresh hat hscope child,
      definitionRenamed_of_desugars hat hscope child⟩

end Tree

end EagerLambda
