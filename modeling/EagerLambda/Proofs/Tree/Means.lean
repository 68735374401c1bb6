import EagerLambda.Proofs.Evaluation.Evaluate
import EagerLambda.Proofs.Tree.Desugar

/-!
# The value that a sugared tree stands for

The core tree for the value of a sugared tree can be described construct by construct, without the
pass that makes it. A definition has a value too, the one it gives to what it binds, so definitions
inside definitions need no description of their own.

## Main definitions

- `Tree.recFree` — no definition in a tree is recursive
- `Tree.valuePart` — the value of a definition
- `Tree.Means` — a core tree stands for the value of a tree
- `Tree.CoreForm`, `Tree.ValueForm` — a core tree is the value of a tree that has a core form

## Main statements

- `Tree.binder_of_desugars` — a definition binds what its core form binds
- `Tree.means_of_desugars` — the core form of a tree stands for its value
-/

namespace EagerLambda

open Construct

namespace Tree

mutual

/-- Whether no definition in a tree is recursive. -/
def recFree : Tree → Bool
  | node label children => decide (label ≠ .construct .recursive) && recFreeAll children

/-- Whether no definition in the trees of a list is recursive. -/
def recFreeAll : List Tree → Bool
  | [] => true
  | tree :: rest => tree.recFree && recFreeAll rest

end

theorem recFreeAll_iff {trees : List Tree} :
    recFreeAll trees = true ↔ ∀ t ∈ trees, t.recFree = true := by
  induction trees with
  | nil => simp [recFreeAll]
  | cons tree rest ih => simp [recFreeAll, ih]

theorem recFree_node {label : Label} {children : List Tree} :
    (node label children).recFree = true ↔
      label ≠ .construct .recursive ∧ ∀ t ∈ children, t.recFree = true := by
  rw [recFree, Bool.and_eq_true, decide_eq_true_iff, recFreeAll_iff]

/-- The value of a definition; any other tree stands for itself. -/
def valuePart : Tree → Tree
  | node (.construct .definition) [_, value] => value
  | tree => tree

theorem Core.valuePart_eq {tree : Tree} (h : Core tree) : tree.valuePart = tree := by
  cases h <;> rfl

theorem boundNames_of_desugars {tree core : Tree} (h : tree.Desugars core) {names : List Name}
    (hnames : core.boundNames = .ok names) : tree.boundNames = .ok names := by
  rwa [← eq_of_desugars_bound h hnames]

theorem forall₂_zipWith_define {trees binders values : List Tree}
    (h : List.Forall₂ Desugars trees (List.zipWith define binders values))
    (hlength : binders.length = values.length) :
    List.Forall₂ (fun t b => ∃ v, t.Desugars (define b v)) trees binders ∧
      List.Forall₂ (fun t v => ∃ b, t.Desugars (define b v)) trees values := by
  induction binders generalizing trees values with
  | nil =>
    obtain rfl : values = [] := List.length_eq_zero_iff.1 hlength.symm
    cases h
    exact ⟨.nil, .nil⟩
  | cons b bs ih =>
    obtain ⟨v, vs, rfl⟩ := List.exists_cons_of_length_eq_add_one hlength.symm
    obtain _ | ⟨hfirst, hrest⟩ := h
    obtain ⟨hbinders, hvalues⟩ := ih hrest (by simpa using hlength)
    exact ⟨.cons ⟨v, hfirst⟩ hbinders, .cons ⟨b, hfirst⟩ hvalues⟩

theorem binders_eq_map (trees : List Tree) : binders trees = trees.map binder := by
  induction trees with
  | nil => rfl
  | cons tree rest ih => rw [binders, ih, List.map_cons]

/-- A definition binds what its core form binds. -/
theorem binder_of_desugars {tree bound value : Tree} {names : List Name}
    (h : tree.Desugars (define bound value)) (hnames : bound.boundNames = .ok names) :
    tree.binder = bound := by
  induction tree using children_induction generalizing bound value names with
  | node label children ih =>
    obtain ⟨c, cores, rfl, hcores, ⟨rfl, rfl⟩ | hexpands⟩ := desugars_define h
    · obtain _ | ⟨hbinder, -⟩ := hcores
      exact (eq_of_desugars_bound hbinder hnames).symm
    · cases hexpands with
      | functionForm name first second rest =>
        obtain _ | ⟨hname, -⟩ := hcores
        exact (eq_of_desugars_bound hname hnames).symm
      | @simultaneous first second rest values hlength =>
        have hbinders := (forall₂_zipWith_define hcores hlength).1
        have hnames : parameterNames (first :: second :: rest) = .ok names := hnames
        have heach : List.Forall₂ (fun t b => t.binder = b) children (first :: second :: rest) :=
          Value.forall₂_imp_of_mem hbinders fun t ht b hb ⟨v, hv⟩ => by
            rw [parameterNames_eq_ok.1 hnames] at hb
            obtain ⟨x, -, rfl⟩ := List.mem_map.1 hb
            exact ih t ht hv rfl
        rw [binder, binders_eq_map]
        exact congrArg _ (List.forall₂_eq_eq_eq ▸ List.forall₂_map_left_iff.2 heach)
      | within outerBinder outerValue binder value =>
        obtain _ | ⟨-, _ | ⟨hinner, _ | _⟩⟩ := hcores
        rw [Tree.binder]
        exact ih _ (by simp) hinner hnames
      | recursive binder value =>
        obtain _ | ⟨hequation, _ | _⟩ := hcores
        rw [Tree.binder]
        exact ih _ (by simp) hequation hnames

theorem boundNames_binder {tree bound value : Tree} {names : List Name}
    (h : tree.Desugars (define bound value)) (hnames : bound.boundNames = .ok names) :
    tree.binder.boundNames = .ok names := by rwa [binder_of_desugars h hnames]

/-- The tree has a core form without recursive definitions, and `core` is the value it gives if it
is a definition, or else the core form itself. -/
structure CoreForm (tree core : Tree) : Prop where
  recFree : tree.recFree = true
  isCore : core.Core
  desugars : ∃ whole, tree.Desugars whole ∧ whole.valuePart = core

/-- The functions that bind these binders in turn. -/
def lambdas (binders : List Tree) (body : Tree) : Tree := binders.foldr lambda body

section

variable (form : Tree → Tree → Prop) (recursion : Prop)

/-- The core tree stands for the value of the tree. The bodies of functions are related by `form`,
and there are recursive definitions only if `recursion` holds. -/
inductive Means : Tree → Tree → Prop
  | atom (a : Atom) : Means (leaf a) (leaf a)
  | binary (op : BinaryOp) {left right left' right' : Tree} : Means left left' →
      Means right right' → Means (node (.binary op) [left, right])
        (node (.binary op) [left', right'])
  | unary (op : UnaryOp) {operand operand' : Tree} : Means operand operand' →
      Means (node (.unary op) [operand]) (node (.unary op) [operand'])
  | gamma {function argument function' argument' : Tree} : Means function function' →
      Means argument argument' → Means (apply function argument) (apply function' argument')
  | tau {components components' : List Tree} : components.length = components'.length →
      (∀ t t', (t, t') ∈ components.zip components' → Means t t') →
      Means (of .tau components) (of .tau components')
  | conditional {condition thenTree elseTree condition' thenTree' elseTree' : Tree} :
      Means condition condition' → Means thenTree thenTree' → Means elseTree elseTree' →
      Means (of .conditional [condition, thenTree, elseTree])
        (of .conditional [condition', thenTree', elseTree'])
  | lambda {children : List Tree} {params : List Name} {later : List (List Name)}
      {binder body body' : Tree} {binders : List Tree} :
      functionParts children = .ok (params :: later, body) → binder.boundNames = .ok params →
      List.Forall₂ (fun b names => b.boundNames = .ok names) binders later →
      form body body' → Means (of .lambda children) (Tree.lambda binder (lambdas binders body'))
  | functionForm {name : Tree} {children : List Tree} {params : List Name}
      {later : List (List Name)} {binder body body' : Tree} {binders : List Tree} :
      functionParts children = .ok (params :: later, body) → binder.boundNames = .ok params →
      List.Forall₂ (fun b names => b.boundNames = .ok names) binders later →
      form body body' →
      Means (of .functionForm (name :: children)) (Tree.lambda binder (lambdas binders body'))
  | letIn {equation body binder value body' : Tree} {params : List Name} :
      equation.binder.boundNames = .ok params → binder.boundNames = .ok params →
      Means equation value → form body body' →
      Means (of .letIn [equation, body]) (apply (Tree.lambda binder body') value)
  | whereIn {equation body binder value body' : Tree} {params : List Name} :
      equation.binder.boundNames = .ok params → binder.boundNames = .ok params →
      Means equation value → form body body' →
      Means (of .whereIn [body, equation]) (apply (Tree.lambda binder body') value)
  | within {outer inner binder value body' : Tree} {params : List Name} :
      outer.binder.boundNames = .ok params → binder.boundNames = .ok params →
      Means outer value → form inner body' →
      Means (of .within [outer, inner]) (apply (Tree.lambda binder body') value)
  | simultaneous {equations values : List Tree} : equations.length = values.length →
      (∀ t t', (t, t') ∈ equations.zip values → Means t t') →
      Means (of .simultaneous equations) (of .tau values)
  | between {left function right left' function' right' : Tree} : Means left left' →
      Means function function' → Means right right' →
      Means (of .between [left, function, right]) (apply (apply function' left') right')
  | definition {binder value value' : Tree} : Means value value' →
      Means (of .definition [binder, value]) value'
  | recursive {equation binder body body' : Tree} {params : List Name} {later : List (List Name)}
      {binders : List Tree} : recursion → equation.binder.boundNames = .ok params →
      binder.boundNames = .ok params → equation.equationParts = .ok (later, body) →
      List.Forall₂ (fun b names => b.boundNames = .ok names) binders later → form body body' →
      Means (of .recursive [equation])
        (apply (.identifier .fixpoint) (Tree.lambda binder (lambdas binders body')))

end

/-- The functions that a curried function abbreviates, over the core forms of its parts. -/
theorem functionParts_of_curry {tree core : Tree} {trees cores : List Tree}
    (hfirst : tree.Desugars core) (hrest : List.Forall₂ Desugars trees cores)
    (hcore : (curry core cores).Core) :
    ∃ later body binders body', functionParts (tree :: trees) = .ok (later, body) ∧
      List.Forall₂ (fun b names => b.boundNames = .ok names) binders later ∧
      body ∈ tree :: trees ∧ body.Desugars body' ∧ body'.Core ∧
      curry core cores = lambdas binders body' := by
  induction hrest generalizing tree core with
  | nil => exact ⟨[], tree, [], core, rfl, .nil, by simp, hfirst, hcore, rfl⟩
  | cons hsecond _ ih =>
    rw [curry] at hcore ⊢
    cases hcore with
    | lambda hparams hbody =>
      obtain ⟨later, body, binders, body', hparts, hbinders, hmem, hdesugars, hcore', hcurry⟩ :=
        ih hsecond hbody
      refine ⟨_ :: later, body, core :: binders, body', ?_, .cons hparams hbinders,
        List.mem_cons_of_mem _ hmem, hdesugars, hcore', by rw [hcurry]; rfl⟩
      simp only [functionParts, boundNames_of_desugars hfirst hparams, hparts]
      rfl

/-- A function of several parameters takes the first one and answers a function of the others. -/
theorem functionParts_of_lambda {first second first' second' : Tree} {rest rest' : List Tree}
    (hfirst : first.Desugars first') (hsecond : second.Desugars second')
    (hrest : List.Forall₂ Desugars rest rest')
    (hcore : (Tree.lambda first' (curry second' rest')).Core) :
    ∃ params later body binders body',
      functionParts (first :: second :: rest) = .ok (params :: later, body) ∧
      first'.boundNames = .ok params ∧
      List.Forall₂ (fun b names => b.boundNames = .ok names) binders later ∧
      body ∈ second :: rest ∧ body.Desugars body' ∧ body'.Core ∧
      curry second' rest' = lambdas binders body' := by
  cases hcore with
  | @lambda _ _ params hparams hbody =>
    obtain ⟨later, body, binders, body', hparts, hbinders, hmem, hdesugars, hcore', hcurry⟩ :=
      functionParts_of_curry hsecond hrest hbody
    refine ⟨params, later, body, binders, body', ?_, hparams, hbinders, hmem, hdesugars, hcore',
      hcurry⟩
    simp only [functionParts, boundNames_of_desugars hfirst hparams, hparts]
    rfl

theorem zip_of_forall₂ {P : Tree → Tree → Prop} {trees cores : List Tree}
    (h : List.Forall₂ P trees cores) :
    trees.length = cores.length ∧ ∀ t t', (t, t') ∈ trees.zip cores → P t t' :=
  ⟨h.length_eq, fun _ _ ht => (List.forall₂_iff_zip.1 h).2 ht⟩

/-- Trees with the property `P` are related by `form` to the core forms of their values, and have
recursive definitions in them only if `recursion` holds. -/
structure Covers (P : Tree → Prop) (form : Tree → Tree → Prop) (recursion : Prop) : Prop where
  parts {label : Label} {children : List Tree} : P (node label children) → ∀ t ∈ children, P t
  form {tree core : Tree} : P tree → tree.Desugars core → core.valuePart.Core →
    form tree core.valuePart
  recursion {children : List Tree} : P (of .recursive children) → recursion

section

variable {P : Tree → Prop} {form : Tree → Tree → Prop} {recursion : Prop}
  (hP : Covers P form recursion)

include hP

theorem form_of_core {tree core : Tree} (htree : P tree) (h : tree.Desugars core)
    (hcore : core.Core) : form tree core := by
  have hform := hP.form htree h (by rwa [hcore.valuePart_eq])
  rwa [hcore.valuePart_eq] at hform

/-- What an equation defines, as a function of its parameters. -/
theorem equationParts_of_define {tree bound value : Tree} (htree : P tree)
    (h : tree.Desugars (define bound value)) (hvalue : value.Core) :
    ∃ later body binders body', tree.equationParts = .ok (later, body) ∧
      List.Forall₂ (fun b names => b.boundNames = .ok names) binders later ∧
      form body body' ∧ value = lambdas binders body' := by
  obtain ⟨label, children⟩ := tree
  obtain ⟨c, cores, rfl, hcores, ⟨rfl, -⟩ | hexpands⟩ := desugars_define h
  · exact ⟨[], _, [], value, rfl, .nil, hP.form htree h hvalue, rfl⟩
  · cases hexpands with
    | functionForm name first second rest =>
      obtain _ | ⟨-, _ | ⟨hfirst, _ | ⟨hsecond, hrest⟩⟩⟩ := hcores
      obtain ⟨params, later, body, binders, body', hparts, hparams, hbinders, hmem, hbody,
        hbodyCore, hcurry⟩ := functionParts_of_lambda hfirst hsecond hrest hvalue
      have hpart : P body :=
        hP.parts htree body (List.mem_cons_of_mem _ (List.mem_cons_of_mem _ hmem))
      refine ⟨params :: later, body, first :: binders, body', hparts, .cons hparams hbinders,
        form_of_core hP hpart hbody hbodyCore, ?_⟩
      show Tree.lambda first (curry second rest) = _
      rw [hcurry]
      rfl
    | simultaneous | within | recursive =>
      exact ⟨[], _, [], _, rfl, .nil, hP.form htree h hvalue, rfl⟩

end

section

variable {c : Construct} {children cores : List Tree} {core : Tree}
  {P : Tree → Prop} {form : Tree → Tree → Prop} {recursion : Prop}
  (hP : Covers P form recursion) (hchildren : ∀ t ∈ children, P t)
  (ih : ∀ t ∈ children, ∀ {d : Tree}, t.Desugars d → d.valuePart.Core →
    Means form recursion t d.valuePart)

include ih

theorem means_of_mem {t d : Tree} (ht : t ∈ children) (h : t.Desugars d) (hcore : d.Core) :
    Means form recursion t d := by
  have hmeans := ih t ht h (by rwa [hcore.valuePart_eq])
  rwa [hcore.valuePart_eq] at hmeans

theorem means_of_define {t bound value : Tree} (ht : t ∈ children)
    (h : t.Desugars (define bound value)) (hvalue : value.Core) : Means form recursion t value :=
  ih t ht h hvalue

include hP hchildren

/-- A construct that is core already stands for itself, a definition for its value. -/
theorem means_of_core (hcores : List.Forall₂ Desugars children cores)
    (hcore : (of c cores).valuePart.Core) :
    Means form recursion (of c children) (of c cores).valuePart := by
  cases c with
  | gamma =>
    cases hcore with
    | gamma hfunction hargument =>
      obtain _ | ⟨hf, _ | ⟨ha, _ | _⟩⟩ := hcores
      exact .gamma (means_of_mem ih (by simp) hf hfunction) (means_of_mem ih (by simp) ha hargument)
  | tau =>
    cases hcore with
    | tau hcomponents =>
      obtain ⟨hlength, hmeans⟩ := zip_of_forall₂ (Value.forall₂_imp_of_mem hcores
        fun t ht d hd htd => means_of_mem ih ht htd (hcomponents d hd))
      exact .tau hlength hmeans
  | conditional =>
    cases hcore with
    | conditional hcondition hthen helse =>
      obtain _ | ⟨hc, _ | ⟨ht, _ | ⟨he, _ | _⟩⟩⟩ := hcores
      exact .conditional (means_of_mem ih (by simp) hc hcondition)
        (means_of_mem ih (by simp) ht hthen) (means_of_mem ih (by simp) he helse)
  | lambda =>
    cases hcore with
    | lambda hparams hbody =>
      obtain _ | ⟨hb, _ | ⟨he, _ | _⟩⟩ := hcores
      refine .lambda ?_ hparams .nil (form_of_core hP (hchildren _ (by simp)) he hbody)
      exact functionParts_pair (boundNames_of_desugars hb hparams) _
  | definition =>
    obtain _ | ⟨hb, _ | ⟨hv, _ | _⟩⟩ := hcores
    case cons.cons.nil => exact .definition (means_of_mem ih (by simp) hv hcore)
    all_goals cases hcore
  | letIn | whereIn | functionForm | simultaneous | within | between | comma | recursive =>
    cases hcore

/-- What an abbreviation is expanded to stands for the value of the abbreviation. -/
theorem means_of_expands (hcores : List.Forall₂ Desugars children cores)
    (hexpands : c.Expands cores core) (hrec : c = .recursive → recursion)
    (hcore : core.valuePart.Core) : Means form recursion (of c children) core.valuePart := by
  cases hexpands with
  | letIn binder value body =>
    obtain _ | ⟨hequation, _ | ⟨hbody, _ | _⟩⟩ := hcores
    cases hcore with
    | gamma hfunction hvalue =>
      cases hfunction with
      | lambda hparams hbodyCore =>
        exact .letIn (boundNames_binder hequation hparams) hparams
          (means_of_define ih (by simp) hequation hvalue)
          (form_of_core hP (hchildren _ (by simp)) hbody hbodyCore)
  | whereIn body binder value =>
    obtain _ | ⟨hbody, _ | ⟨hequation, _ | _⟩⟩ := hcores
    cases hcore with
    | gamma hfunction hvalue =>
      cases hfunction with
      | lambda hparams hbodyCore =>
        exact .whereIn (boundNames_binder hequation hparams) hparams
          (means_of_define ih (by simp) hequation hvalue)
          (form_of_core hP (hchildren _ (by simp)) hbody hbodyCore)
  | functionForm name first second rest =>
    obtain _ | ⟨-, _ | ⟨hfirst, _ | ⟨hsecond, hrest⟩⟩⟩ := hcores
    obtain ⟨params, later, body, binders, body', hparts, hparams, hbinders, hmem, hbody,
      hbodyCore, hcurry⟩ := functionParts_of_lambda hfirst hsecond hrest hcore
    show Means _ _ _ (Tree.lambda first (curry second rest))
    rw [hcurry]
    refine .functionForm hparts hparams hbinders (form_of_core hP (hchildren _ ?_) hbody hbodyCore)
    exact List.mem_cons_of_mem _ (List.mem_cons_of_mem _ hmem)
  | simultaneous hlength =>
    cases hcore with
    | tau hvalues =>
      have hequations := (forall₂_zipWith_define hcores hlength).2
      obtain ⟨hlength', hmeans⟩ := zip_of_forall₂ (Value.forall₂_imp_of_mem hequations
        fun t ht v hv htv => by
          obtain ⟨b, hb⟩ := htv
          exact means_of_define ih ht hb (hvalues v hv))
      exact .simultaneous hlength' hmeans
  | within outerBinder outerValue binder value =>
    obtain _ | ⟨houter, _ | ⟨hinner, _ | _⟩⟩ := hcores
    cases hcore with
    | gamma hfunction hvalue =>
      cases hfunction with
      | lambda hparams hbodyCore =>
        exact .within (boundNames_binder houter hparams) hparams
          (means_of_define ih (by simp) houter hvalue)
          (hP.form (hchildren _ (by simp)) hinner hbodyCore)
  | between left function right =>
    obtain _ | ⟨hl, _ | ⟨hf, _ | ⟨hr, _ | _⟩⟩⟩ := hcores
    cases hcore with
    | gamma happlied hright =>
      cases happlied with
      | gamma hfunction hleft =>
        exact .between (means_of_mem ih (by simp) hl hleft) (means_of_mem ih (by simp) hf hfunction)
          (means_of_mem ih (by simp) hr hright)
  | lambda first second third rest =>
    obtain _ | ⟨hfirst, _ | ⟨hsecond, hrest⟩⟩ := hcores
    obtain ⟨params, later, body, binders, body', hparts, hparams, hbinders, hmem, hbody,
      hbodyCore, hcurry⟩ := functionParts_of_lambda hfirst hsecond hrest hcore
    show Means _ _ _ (Tree.lambda first (curry second (third :: rest)))
    rw [hcurry]
    exact .lambda hparts hparams hbinders
      (form_of_core hP (hchildren _ (List.mem_cons_of_mem _ hmem)) hbody hbodyCore)
  | recursive binder value =>
    obtain _ | ⟨hequation, _ | _⟩ := hcores
    cases hcore with
    | gamma _ hfunction =>
      cases hfunction with
      | lambda hparams hvalue =>
        obtain ⟨later, body, binders, body', hparts, hbinders, hbody, rfl⟩ :=
          equationParts_of_define hP (hchildren _ (by simp)) hequation hvalue
        exact .recursive (hrec rfl) (boundNames_binder hequation hparams) hparams hparts hbinders
          hbody

end

/-- The core form of a tree, or of the value of a definition, stands for the value of the tree. -/
theorem means_of_desugars {P : Tree → Prop} {form : Tree → Tree → Prop} {recursion : Prop}
    (hP : Covers P form recursion) {tree core : Tree} (htree : P tree) (h : tree.Desugars core)
    (hcore : core.valuePart.Core) : Means form recursion tree core.valuePart := by
  induction tree using children_induction generalizing core with
  | node label children ih =>
    have hchildren := hP.parts htree
    -- The claim is about the value of a definition, so that the induction hypothesis covers the
    -- definitions inside a construct that is expanded.
    have ih' : ∀ t ∈ children, ∀ {d : Tree}, t.Desugars d → d.valuePart.Core →
        Means form recursion t d.valuePart := fun t ht => ih t ht (hchildren t ht)
    cases label with
    | atom a =>
      rw [desugars_atom h] at hcore ⊢
      cases hcore
      exact .atom a
    | binary op =>
      obtain ⟨cores, hcores, rfl⟩ := desugars_binary h
      cases hcore with
      | binary _ hleft hright =>
        obtain _ | ⟨hl, _ | ⟨hr, _ | _⟩⟩ := hcores
        exact .binary op (means_of_mem ih' (by simp) hl hleft)
          (means_of_mem ih' (by simp) hr hright)
    | unary op =>
      obtain ⟨cores, hcores, rfl⟩ := desugars_unary h
      cases hcore with
      | unary _ hoperand =>
        obtain _ | ⟨ho, _ | _⟩ := hcores
        exact .unary op (means_of_mem ih' (by simp) ho hoperand)
    | construct c =>
      obtain ⟨cores, hcores, ⟨-, rfl⟩ | hexpands⟩ := desugars_construct h
      · exact means_of_core hP hchildren ih' hcores hcore
      · exact means_of_expands hP hchildren ih' hcores hexpands
          (fun hc => hP.recursion (hc ▸ htree)) hcore

/-- Trees without recursive definitions. -/
theorem covers_recFree : Covers (fun tree => tree.recFree = true) CoreForm False where
  parts h := (recFree_node.1 h).2
  form h hdesugars hcore := ⟨h, hcore, _, hdesugars, rfl⟩
  recursion h := (recFree_node.1 h).1 rfl

theorem CoreForm.means {tree core : Tree} (h : tree.CoreForm core) :
    Means CoreForm False tree core := by
  obtain ⟨hrec, hcore, whole, hdesugars, rfl⟩ := h
  exact means_of_desugars covers_recFree hrec hdesugars hcore

/-- The tree has a core form, and `core` is the value it gives if it is a definition, or else the
core form itself. -/
structure ValueForm (tree core : Tree) : Prop where
  isCore : core.Core
  desugars : ∃ whole, tree.Desugars whole ∧ whole.valuePart = core

theorem covers_all : Covers (fun _ => True) ValueForm True where
  parts _ _ _ := trivial
  form _ hdesugars hcore := ⟨hcore, _, hdesugars, rfl⟩
  recursion _ := trivial

theorem ValueForm.means {tree core : Tree} (h : tree.ValueForm core) :
    Means ValueForm True tree core := by
  obtain ⟨hcore, whole, hdesugars, rfl⟩ := h
  exact means_of_desugars covers_all trivial hdesugars hcore

end Tree

end EagerLambda
