import EagerLambda.Proofs.Tree.Means

/-!
# The surface grammar

Programs are the expressions of a grammar in which expressions and definitions have places of their
own:

    V   an identifier, or a list of identifiers that is not empty
    E   a leaf, an operator over expressions, gamma E E, tau E .. E, -> E E E, @ E E E,
        let D E, where E D, lambda V .. V E
    D   = V E, fcn_form V V .. V E, and D .. D, within D D, rec D

A binary operator takes two expressions and a unary operator one; a function has at least one
parameter, and at least two definitions are made at the same time, each of a single name. Desugaring
checks a part of this and leaves the rest to the layout of the core form, so the grammar describes
the trees whose core form can be laid out.

## Main definitions

- `Tree.Pattern` — what can stand where names are bound
- `Tree.Grammatical` — the expressions and the definitions
- `Tree.Role.HasCore` — a tree has the core form of an expression or of a definition

## Main statements

- `Tree.grammatical_iff` — the grammar describes the trees that have such a core form
-/

namespace EagerLambda

open Construct

namespace Tree

/-- What can stand where names are bound. -/
inductive Pattern : Tree → Prop
  | name (x : Name) : Pattern (identifier x)
  | names {xs : List Name} : xs ≠ [] → Pattern (of .comma (xs.map identifier))

/-- What is expected at a place of a program. -/
inductive Role
  | expression
  /-- An equation, or what abbreviates one. -/
  | definition
  deriving DecidableEq, Repr

/-- The trees that the grammar has for a role. -/
inductive Grammatical : Role → Tree → Prop
  | leaf (a : Atom) : Grammatical .expression (leaf a)
  | binary (op : BinaryOp) {left right : Tree} : Grammatical .expression left →
      Grammatical .expression right → Grammatical .expression (.node (.binary op) [left, right])
  | unary (op : UnaryOp) {operand : Tree} : Grammatical .expression operand →
      Grammatical .expression (.node (.unary op) [operand])
  | gamma {function argument : Tree} : Grammatical .expression function →
      Grammatical .expression argument → Grammatical .expression (.of .gamma [function, argument])
  | tau {components : List Tree} : (∀ t ∈ components, Grammatical .expression t) →
      Grammatical .expression (.of .tau components)
  | conditional {condition thenTree elseTree : Tree} : Grammatical .expression condition →
      Grammatical .expression thenTree → Grammatical .expression elseTree →
      Grammatical .expression (.of .conditional [condition, thenTree, elseTree])
  | between {left function right : Tree} : Grammatical .expression left →
      Grammatical .expression function → Grammatical .expression right →
      Grammatical .expression (.of .between [left, function, right])
  | letIn {equation body : Tree} : Grammatical .definition equation →
      Grammatical .expression body → Grammatical .expression (.of .letIn [equation, body])
  | whereIn {body equation : Tree} : Grammatical .expression body →
      Grammatical .definition equation → Grammatical .expression (.of .whereIn [body, equation])
  | lambda {params : List Tree} {body : Tree} : params ≠ [] → (∀ p ∈ params, Pattern p) →
      Grammatical .expression body → Grammatical .expression (.of .lambda (params ++ [body]))
  | define {binder value : Tree} : Pattern binder → Grammatical .expression value →
      Grammatical .definition (.of .definition [binder, value])
  | functionForm {name : Tree} {params : List Tree} {body : Tree} : Pattern name →
      params ≠ [] → (∀ p ∈ params, Pattern p) → Grammatical .expression body →
      Grammatical .definition (.of .functionForm (name :: (params ++ [body])))
  | simultaneous {equations : List Tree} : 2 ≤ equations.length →
      (∀ t ∈ equations, Grammatical .definition t) →
      (∀ t ∈ equations, ∃ x, t.binder = identifier x) →
      Grammatical .definition (.of .simultaneous equations)
  | within {outer inner : Tree} : Grammatical .definition outer →
      Grammatical .definition inner → Grammatical .definition (.of .within [outer, inner])
  | recursive {equation : Tree} : Grammatical .definition equation →
      Grammatical .definition (.of .recursive [equation])

/-- The tree has a core form of this kind: a core tree for an expression, and an equation between
what binds names and a core tree for a definition. -/
def Role.HasCore : Role → Tree → Prop
  | expression, tree => ∃ core, tree.Desugars core ∧ core.Core
  | definition, tree =>
    ∃ bound value, tree.Desugars (define bound value) ∧ Pattern bound ∧ value.Core

-- ════════════════════════════════════════════════════════════════════════
-- Patterns and parameters
-- ════════════════════════════════════════════════════════════════════════

/-- What can stand where names are bound is what a function can be laid out with. -/
theorem pattern_iff {tree : Tree} : Pattern tree ↔ ∃ names, tree.boundNames = .ok names := by
  constructor
  · intro h
    cases h with
    | name x => exact ⟨[x], rfl⟩
    | @names xs hne =>
      obtain ⟨x, rest, rfl⟩ := List.exists_cons_of_ne_nil hne
      exact ⟨x :: rest, parameterNames_eq_ok.2 rfl⟩
  · rintro ⟨names, h⟩
    unfold boundNames at h
    split at h
    · next first rest =>
      have htrees := parameterNames_eq_ok.1 h
      rw [htrees]
      exact .names fun hnil => by simp [hnil] at htrees
    · split at h
      · cases h
      · next x hx =>
        rw [name?_eq_some.1 hx]
        exact .name x

/-- What binds names is its own core form. -/
theorem Pattern.desugars {tree : Tree} (h : Pattern tree) : tree.Desugars tree := by
  cases h with
  | name x => exact desugars_identifier x
  | @names xs hne =>
    refine .core (List.forall₂_same.2 fun t ht => ?_) rfl
    obtain ⟨x, -, rfl⟩ := List.mem_map.1 ht
    exact desugars_identifier x

/-- A function takes apart into its parameters and the body, which stands last. -/
theorem functionParts_eq_ok {trees : List Tree} {later : List (List Name)} {body : Tree}
    (h : functionParts trees = .ok (later, body)) :
    ∃ params, trees = params ++ [body] ∧
      List.Forall₂ (fun p names => p.boundNames = .ok names) params later := by
  induction trees generalizing later with
  | nil => cases h
  | cons first rest ih =>
    cases rest with
    | nil =>
      cases h
      exact ⟨[], rfl, .nil⟩
    | cons second rest =>
      obtain ⟨names, hnames, h⟩ := bind_eq_ok.1 h
      obtain ⟨⟨others, last⟩, hrest, h⟩ := bind_eq_ok.1 h
      cases h
      obtain ⟨params, htrees, hparams⟩ := ih hrest
      exact ⟨first :: params, by rw [htrees]; rfl, .cons hnames hparams⟩

theorem patterns_of_forall₂ {params : List Tree} {later : List (List Name)}
    (h : List.Forall₂ (fun p names => p.boundNames = .ok names) params later) :
    ∀ p ∈ params, Pattern p := by
  induction h with
  | nil => exact nofun
  | cons hnames _ ih =>
    intro p hp
    rcases List.mem_cons.1 hp with rfl | hp
    · exact pattern_iff.2 ⟨_, hnames⟩
    · exact ih p hp

/-- Nested functions bind the parameters around the body. -/
theorem curry_eq_lambdas {first body : Tree} {rest params : List Tree}
    (h : first :: rest = params ++ [body]) : curry first rest = lambdas params body := by
  induction params generalizing first rest with
  | nil =>
    cases h
    rfl
  | cons p ps ih =>
    obtain ⟨rfl, hrest⟩ : first = p ∧ rest = ps ++ [body] := List.cons.inj h
    obtain ⟨second, others, rfl⟩ := List.exists_cons_of_ne_nil (l := rest) (by simp [hrest])
    rw [curry, ih hrest]
    rfl

theorem core_lambdas {params : List Tree} {body : Tree} (hparams : ∀ p ∈ params, Pattern p)
    (hbody : body.Core) : (lambdas params body).Core := by
  induction params with
  | nil => exact hbody
  | cons p ps ih =>
    obtain ⟨names, hnames⟩ := pattern_iff.1 (hparams p (by simp))
    exact .lambda hnames (ih fun q hq => hparams q (by simp [hq]))

-- ════════════════════════════════════════════════════════════════════════
-- From the grammar to a core form
-- ════════════════════════════════════════════════════════════════════════

/-- The core forms of the parameters and the body of a function, as nested functions. -/
theorem exists_curried {params : List Tree} {body body' : Tree} (hne : params ≠ [])
    (hparams : ∀ p ∈ params, Pattern p) (hbody : body.Desugars body') (hcore : body'.Core) :
    ∃ first second rest, List.Forall₂ Desugars (params ++ [body]) (first :: second :: rest) ∧
      (curry first (second :: rest)).Core := by
  obtain ⟨first, ps, rfl⟩ := List.exists_cons_of_ne_nil hne
  obtain ⟨second, rest, hrest⟩ := List.exists_cons_of_ne_nil (l := ps ++ [body']) (by simp)
  have hcores : first :: second :: rest = (first :: ps) ++ [body'] := by rw [← hrest]; rfl
  refine ⟨first, second, rest, ?_, ?_⟩
  · rw [hcores]
    exact List.rel_append (List.forall₂_same.2 fun p hp => (hparams p hp).desugars)
      (.cons hbody .nil)
  · rw [curry_eq_lambdas hcores]
    exact core_lambdas hparams hcore

theorem exists_cores {trees : List Tree} (h : ∀ t ∈ trees, Role.expression.HasCore t) :
    ∃ cores, List.Forall₂ Desugars trees cores ∧ ∀ core ∈ cores, core.Core := by
  induction trees with
  | nil => exact ⟨[], .nil, nofun⟩
  | cons tree rest ih =>
    obtain ⟨core, hdesugars, hcore⟩ := h tree (by simp)
    obtain ⟨cores, hrest, hcores⟩ := ih fun t ht => h t (by simp [ht])
    exact ⟨core :: cores, .cons hdesugars hrest, List.forall_mem_cons.2 ⟨hcore, hcores⟩⟩

/-- Definitions of a single name each. -/
theorem exists_equations {trees : List Tree} (h : ∀ t ∈ trees, Role.definition.HasCore t)
    (hnames : ∀ t ∈ trees, ∃ x, t.binder = identifier x) :
    ∃ (names : List Name) (values : List Tree), names.length = trees.length ∧
      names.length = values.length ∧
      List.Forall₂ Desugars trees (List.zipWith define (names.map identifier) values) ∧
      ∀ value ∈ values, value.Core := by
  induction trees with
  | nil => exact ⟨[], [], rfl, rfl, .nil, nofun⟩
  | cons tree rest ih =>
    obtain ⟨bound, value, hdesugars, hpattern, hvalue⟩ := h tree (by simp)
    obtain ⟨x, hx⟩ := hnames tree (by simp)
    obtain ⟨xs, hbound⟩ := pattern_iff.1 hpattern
    obtain rfl : identifier x = bound := hx ▸ binder_of_desugars hdesugars hbound
    obtain ⟨names, values, hcount, hlength, hrest, hvalues⟩ :=
      ih (fun t ht => h t (by simp [ht])) fun t ht => hnames t (by simp [ht])
    exact ⟨x :: names, value :: values, by simp [hcount], by simp [hlength],
      .cons hdesugars hrest, List.forall_mem_cons.2 ⟨hvalue, hvalues⟩⟩

/-- What the grammar has for a role has a core form of that kind. -/
theorem Grammatical.hasCore {role : Role} {tree : Tree} (h : Grammatical role tree) :
    role.HasCore tree := by
  induction h with
  | leaf a => exact ⟨_, desugars_leaf a, .atom a⟩
  | binary op _ _ ihLeft ihRight =>
    obtain ⟨left', hleft, hleftCore⟩ := ihLeft
    obtain ⟨right', hright, hrightCore⟩ := ihRight
    exact ⟨_, .binary (.cons hleft (.cons hright .nil)), .binary op hleftCore hrightCore⟩
  | unary op _ ih =>
    obtain ⟨operand', hoperand, hcore⟩ := ih
    exact ⟨_, .unary (.cons hoperand .nil), .unary op hcore⟩
  | gamma _ _ ihFunction ihArgument =>
    obtain ⟨function', hfunction, hfunctionCore⟩ := ihFunction
    obtain ⟨argument', hargument, hargumentCore⟩ := ihArgument
    exact ⟨_, .core (.cons hfunction (.cons hargument .nil)) rfl,
      .gamma hfunctionCore hargumentCore⟩
  | tau _ ih =>
    obtain ⟨cores, hcomponents, hcores⟩ := exists_cores ih
    exact ⟨_, .core hcomponents rfl, .tau hcores⟩
  | conditional _ _ _ ihCondition ihThen ihElse =>
    obtain ⟨condition', hcondition, hconditionCore⟩ := ihCondition
    obtain ⟨then', hthen, hthenCore⟩ := ihThen
    obtain ⟨else', helse, helseCore⟩ := ihElse
    exact ⟨_, .core (.cons hcondition (.cons hthen (.cons helse .nil))) rfl,
      .conditional hconditionCore hthenCore helseCore⟩
  | between _ _ _ ihLeft ihFunction ihRight =>
    obtain ⟨left', hleft, hleftCore⟩ := ihLeft
    obtain ⟨function', hfunction, hfunctionCore⟩ := ihFunction
    obtain ⟨right', hright, hrightCore⟩ := ihRight
    exact ⟨_, .expand (.cons hleft (.cons hfunction (.cons hright .nil))) rfl,
      .gamma (.gamma hfunctionCore hleftCore) hrightCore⟩
  | letIn _ _ ihEquation ihBody =>
    obtain ⟨bound, value, hequation, hpattern, hvalue⟩ := ihEquation
    obtain ⟨body', hbody, hbodyCore⟩ := ihBody
    obtain ⟨names, hnames⟩ := pattern_iff.1 hpattern
    exact ⟨_, .expand (.cons hequation (.cons hbody .nil)) rfl,
      .gamma (.lambda hnames hbodyCore) hvalue⟩
  | whereIn _ _ ihBody ihEquation =>
    obtain ⟨body', hbody, hbodyCore⟩ := ihBody
    obtain ⟨bound, value, hequation, hpattern, hvalue⟩ := ihEquation
    obtain ⟨names, hnames⟩ := pattern_iff.1 hpattern
    exact ⟨_, .expand (.cons hbody (.cons hequation .nil)) rfl,
      .gamma (.lambda hnames hbodyCore) hvalue⟩
  | @lambda params body hne hparams _ ih =>
    obtain ⟨body', hbody, hbodyCore⟩ := ih
    obtain ⟨first, second, rest, hcores, hcore⟩ := exists_curried hne hparams hbody hbodyCore
    exact ⟨_, desugars_lambda hcores, hcore⟩
  | define hpattern _ ih =>
    obtain ⟨value', hvalue, hcore⟩ := ih
    exact ⟨_, value', .core (.cons hpattern.desugars (.cons hvalue .nil)) rfl, hpattern, hcore⟩
  | @functionForm name params body hname hne hparams _ ih =>
    obtain ⟨body', hbody, hbodyCore⟩ := ih
    obtain ⟨first, second, rest, hcores, hcore⟩ := exists_curried hne hparams hbody hbodyCore
    exact ⟨name, _, .expand (.cons hname.desugars hcores) rfl, hname, hcore⟩
  | @simultaneous equations htwo _ hnames ih =>
    obtain ⟨names, values, hcount, hlength, hequations, hvalues⟩ := exists_equations ih hnames
    match names, hcount ▸ htwo with
    | x :: y :: rest, _ =>
      have hexpand := expand_simultaneous (by simpa using hlength :
        ((x :: y :: rest).map identifier).length = values.length)
      exact ⟨_, _, .expand hequations hexpand, .names (List.cons_ne_nil x (y :: rest)),
        .tau hvalues⟩
  | within _ _ ihOuter ihInner =>
    obtain ⟨outerBound, outerValue, houter, houterPattern, houterValue⟩ := ihOuter
    obtain ⟨bound, value, hinner, hpattern, hvalue⟩ := ihInner
    obtain ⟨names, hnames⟩ := pattern_iff.1 houterPattern
    exact ⟨bound, _, .expand (.cons houter (.cons hinner .nil)) rfl, hpattern,
      .gamma (.lambda hnames hvalue) houterValue⟩
  | recursive _ ih =>
    obtain ⟨bound, value, hequation, hpattern, hvalue⟩ := ih
    obtain ⟨names, hnames⟩ := pattern_iff.1 hpattern
    exact ⟨bound, _, .expand (.cons hequation .nil) rfl, hpattern,
      .gamma (.atom _) (.lambda hnames hvalue)⟩

-- ════════════════════════════════════════════════════════════════════════
-- From a core form to the grammar
-- ════════════════════════════════════════════════════════════════════════

theorem exists_core_of_mem {P : Tree → Tree → Prop} {trees cores : List Tree}
    (h : List.Forall₂ P trees cores) {t : Tree} (ht : t ∈ trees) : ∃ core ∈ cores, P t core := by
  induction h with
  | nil => cases ht
  | cons hfirst _ ih =>
    rcases List.mem_cons.1 ht with rfl | ht
    · exact ⟨_, by simp, hfirst⟩
    · obtain ⟨core, hmem, hcore⟩ := ih ht
      exact ⟨core, List.mem_cons_of_mem _ hmem, hcore⟩

section

variable {children cores : List Tree} {core bound value : Tree}
  (ih : ∀ t ∈ children, ∀ role, Role.HasCore role t → Grammatical role t)

include ih

theorem expression_of_mem {t d : Tree} (ht : t ∈ children) (h : t.Desugars d) (hcore : d.Core) :
    Grammatical .expression t := ih t ht .expression ⟨d, h, hcore⟩

/-- An equation whose binder ends up as the binder of a function. -/
theorem definition_of_mem {t b v : Tree} {names : List Name} (ht : t ∈ children)
    (h : t.Desugars (define b v)) (hnames : b.boundNames = .ok names) (hcore : v.Core) :
    Grammatical .definition t :=
  ih t ht .definition ⟨b, v, h, pattern_iff.2 ⟨names, hnames⟩, hcore⟩

/-- The parameters and the body of a function, of which only the body is an expression. -/
theorem parts_of_curry {first second first' second' : Tree} {rest rest' : List Tree}
    (hmem : ∀ t ∈ second :: rest, t ∈ children) (hfirst : first.Desugars first')
    (hsecond : second.Desugars second') (hrest : List.Forall₂ Desugars rest rest')
    (hcore : (Tree.lambda first' (curry second' rest')).Core) :
    ∃ params body, first :: second :: rest = params ++ [body] ∧ params ≠ [] ∧
      (∀ p ∈ params, Pattern p) ∧ Grammatical .expression body := by
  obtain ⟨_, later, body, _, body', hparts, -, -, hbodyMem, hbody, hbodyCore, -⟩ :=
    functionParts_of_lambda hfirst hsecond hrest hcore
  obtain ⟨params, htrees, hparams⟩ := functionParts_eq_ok hparts
  refine ⟨params, body, htrees, ?_, patterns_of_forall₂ hparams,
    expression_of_mem ih (hmem body hbodyMem) hbody hbodyCore⟩
  rintro rfl
  cases hparams

/-- An expression whose construct is core already. -/
theorem expression_of_core {c : Construct} (hcores : List.Forall₂ Desugars children cores)
    (hcore : (of c cores).Core) : Grammatical .expression (of c children) := by
  cases hcore with
  | @lambda binder body names hnames hbody =>
    obtain _ | ⟨hb, _ | ⟨he, _ | _⟩⟩ := hcores
    obtain rfl := eq_of_desugars_bound hb hnames
    have hparams : ∀ p ∈ [binder], Pattern p := by
      simpa using pattern_iff.2 ⟨names, hnames⟩
    exact .lambda (List.cons_ne_nil binder []) hparams (expression_of_mem ih (by simp) he hbody)
  | conditional hcondition hthen helse =>
    obtain _ | ⟨hc, _ | ⟨ht, _ | ⟨he, _ | _⟩⟩⟩ := hcores
    exact .conditional (expression_of_mem ih (by simp) hc hcondition)
      (expression_of_mem ih (by simp) ht hthen) (expression_of_mem ih (by simp) he helse)
  | tau hcomponents =>
    refine .tau fun t ht => ?_
    obtain ⟨core, hmem, hdesugars⟩ := exists_core_of_mem hcores ht
    exact expression_of_mem ih ht hdesugars (hcomponents core hmem)
  | gamma hfunction hargument =>
    obtain _ | ⟨hf, _ | ⟨ha, _ | _⟩⟩ := hcores
    exact .gamma (expression_of_mem ih (by simp) hf hfunction)
      (expression_of_mem ih (by simp) ha hargument)

/-- An expression whose construct is an abbreviation. -/
theorem expression_of_expands {c : Construct} (hcores : List.Forall₂ Desugars children cores)
    (hexpands : c.Expands cores core) (hcore : core.Core) :
    Grammatical .expression (of c children) := by
  cases hexpands with
  | letIn binder value body =>
    obtain _ | ⟨hequation, _ | ⟨hbody, _ | _⟩⟩ := hcores
    cases hcore with
    | gamma hfunction hvalue =>
      cases hfunction with
      | lambda hparams hbodyCore =>
        exact .letIn (definition_of_mem ih (by simp) hequation hparams hvalue)
          (expression_of_mem ih (by simp) hbody hbodyCore)
  | whereIn body binder value =>
    obtain _ | ⟨hbody, _ | ⟨hequation, _ | _⟩⟩ := hcores
    cases hcore with
    | gamma hfunction hvalue =>
      cases hfunction with
      | lambda hparams hbodyCore =>
        exact .whereIn (expression_of_mem ih (by simp) hbody hbodyCore)
          (definition_of_mem ih (by simp) hequation hparams hvalue)
  | between left function right =>
    obtain _ | ⟨hl, _ | ⟨hf, _ | ⟨hr, _ | _⟩⟩⟩ := hcores
    cases hcore with
    | gamma happlied hright =>
      cases happlied with
      | gamma hfunction hleft =>
        exact .between (expression_of_mem ih (by simp) hl hleft)
          (expression_of_mem ih (by simp) hf hfunction)
          (expression_of_mem ih (by simp) hr hright)
  | lambda first second third rest =>
    obtain _ | ⟨hfirst, _ | ⟨hsecond, hrest⟩⟩ := hcores
    obtain ⟨params, body, htrees, hne, hparams, hbody⟩ :=
      parts_of_curry ih (fun t ht => List.mem_cons_of_mem _ ht) hfirst hsecond hrest hcore
    rw [htrees]
    exact .lambda hne hparams hbody
  | functionForm | simultaneous | within | recursive => cases hcore

/-- A definition that is an abbreviation. -/
theorem definition_of_expands {c : Construct} (hcores : List.Forall₂ Desugars children cores)
    (hexpands : c.Expands cores (define bound value)) (hpattern : Pattern bound)
    (hvalue : value.Core) : Grammatical .definition (of c children) := by
  obtain ⟨names, hnames⟩ := pattern_iff.1 hpattern
  cases hexpands with
  | functionForm name first second rest =>
    obtain _ | ⟨hname, _ | ⟨hfirst, _ | ⟨hsecond, hrest⟩⟩⟩ := hcores
    obtain rfl := eq_of_desugars_bound hname hnames
    obtain ⟨params, body, htrees, hne, hparams, hbody⟩ :=
      parts_of_curry ih (fun t ht => List.mem_cons_of_mem _ (List.mem_cons_of_mem _ ht))
        hfirst hsecond hrest hvalue
    rw [htrees]
    exact .functionForm hpattern hne hparams hbody
  | @simultaneous first second rest values hlength =>
    have hnames : parameterNames (first :: second :: rest) = .ok names := hnames
    obtain ⟨hbinders, hequations⟩ := forall₂_zipWith_define hcores hlength
    cases hvalue with
    | tau hvalues =>
      -- The core form lists the binders, so each of them has to be a name.
      have heach : ∀ t ∈ children, ∃ x v, t.Desugars (define (identifier x) v) := by
        intro t ht
        obtain ⟨b, hmem, v, hv⟩ := exists_core_of_mem hbinders ht
        rw [parameterNames_eq_ok.1 hnames] at hmem
        obtain ⟨x, -, rfl⟩ := List.mem_map.1 hmem
        exact ⟨x, v, hv⟩
      refine .simultaneous ?_ (fun t ht => ?_) fun t ht => ?_
      · rw [hbinders.length_eq]
        simp
      · obtain ⟨x, v, hv⟩ := heach t ht
        obtain ⟨v', hmem, b, hb⟩ := exists_core_of_mem hequations ht
        cases desugars_unique hv hb
        exact definition_of_mem ih ht hv rfl (hvalues v hmem)
      · obtain ⟨x, v, hv⟩ := heach t ht
        exact ⟨x, binder_of_desugars hv rfl⟩
  | within outerBinder outerValue binder value =>
    obtain _ | ⟨houter, _ | ⟨hinner, _ | _⟩⟩ := hcores
    cases hvalue with
    | gamma hfunction houterValue =>
      cases hfunction with
      | lambda hparams hinnerValue =>
        exact .within (definition_of_mem ih (by simp) houter hparams houterValue)
          (definition_of_mem ih (by simp) hinner hnames hinnerValue)
  | recursive binder value =>
    obtain _ | ⟨hequation, _ | _⟩ := hcores
    cases hvalue with
    | gamma _ hfunction =>
      cases hfunction with
      | lambda hparams hequationValue =>
        exact .recursive (definition_of_mem ih (by simp) hequation hnames hequationValue)

end

/-- A tree with the core form of an expression or a definition is one. -/
theorem grammatical_of_hasCore {role : Role} {tree : Tree} (h : role.HasCore tree) :
    Grammatical role tree := by
  induction tree using children_induction generalizing role with
  | node label children ih =>
    have ih' : ∀ t ∈ children, ∀ role, Role.HasCore role t → Grammatical role t :=
      fun t ht _ h => ih t ht h
    cases role with
    | expression =>
      obtain ⟨core, h, hcore⟩ := h
      cases label with
      | atom a =>
        rw [desugars_atom h] at hcore
        cases hcore
        exact .leaf a
      | binary op =>
        obtain ⟨cores, hcores, rfl⟩ := desugars_binary h
        cases hcore with
        | binary _ hleft hright =>
          obtain _ | ⟨hl, _ | ⟨hr, _ | _⟩⟩ := hcores
          exact .binary op (expression_of_mem ih' (by simp) hl hleft)
            (expression_of_mem ih' (by simp) hr hright)
      | unary op =>
        obtain ⟨cores, hcores, rfl⟩ := desugars_unary h
        cases hcore with
        | unary _ hoperand =>
          obtain _ | ⟨ho, _ | _⟩ := hcores
          exact .unary op (expression_of_mem ih' (by simp) ho hoperand)
      | construct c =>
        obtain ⟨cores, hcores, ⟨-, rfl⟩ | hexpands⟩ := desugars_construct h
        · exact expression_of_core ih' hcores hcore
        · exact expression_of_expands ih' hcores hexpands hcore
    | definition =>
      obtain ⟨bound, value, h, hpattern, hvalue⟩ := h
      obtain ⟨c, cores, rfl, hcores, ⟨rfl, rfl⟩ | hexpands⟩ := desugars_define h
      · obtain _ | ⟨hb, _ | ⟨hv, _ | _⟩⟩ := hcores
        obtain ⟨names, hnames⟩ := pattern_iff.1 hpattern
        obtain rfl := eq_of_desugars_bound hb hnames
        exact .define hpattern (expression_of_mem ih' (by simp) hv hvalue)
      · exact definition_of_expands ih' hcores hexpands hpattern hvalue

/-- The grammar describes the trees that have a core form of the kind that a place asks for. -/
theorem grammatical_iff {role : Role} {tree : Tree} : Grammatical role tree ↔ role.HasCore tree :=
  ⟨Grammatical.hasCore, grammatical_of_hasCore⟩

end Tree

end EagerLambda
