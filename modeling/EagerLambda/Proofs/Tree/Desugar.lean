import EagerLambda.Proofs.Tree.Core
import EagerLambda.Tree.Desugar
import Mathlib.Data.List.Forall2

/-!
# What desugaring makes of a tree

A node is desugared after its children. A construct over core children is either core itself or
abbreviates another tree, and binders are never changed.

## Main definitions

- `Tree.Desugars` — the core form of a tree
- `Construct.Expands` — what a construct over core children abbreviates

## Main statements

- `Tree.desugars_construct` — a construct over core children is core already or is expanded
- `Tree.eq_of_desugars_bound` — what binds names is its own core form
-/

namespace EagerLambda

open Construct

namespace Tree

/-- The core form of a tree. -/
def Desugars (tree core : Tree) : Prop := ∃ expansions, tree.desugar = .ok ⟨core, expansions⟩

theorem desugars_unique {tree core core' : Tree} (h : tree.Desugars core)
    (h' : tree.Desugars core') : core = core' := by
  obtain ⟨expansions, h⟩ := h
  obtain ⟨expansions', h'⟩ := h'
  cases h.symm.trans h'
  rfl

theorem desugars_of_desugarAll {trees cores : List Tree} {expansions : Nat}
    (h : desugarAll trees = .ok (cores, expansions)) : List.Forall₂ Desugars trees cores := by
  induction trees generalizing cores expansions with
  | nil =>
    cases h
    exact .nil
  | cons tree rest ih =>
    rw [desugarAll] at h
    obtain ⟨first, hfirst, h⟩ := bind_eq_ok.1 h
    obtain ⟨⟨others, more⟩, hothers, h⟩ := bind_eq_ok.1 h
    cases h
    exact .cons ⟨first.expansions, hfirst⟩ (ih hothers)

theorem desugars_atom {a : Atom} {children : List Tree} {core : Tree}
    (h : (node (.atom a) children).Desugars core) : core = node (.atom a) children := by
  obtain ⟨_, h⟩ := h
  cases h
  rfl

theorem desugars_binary {op : BinaryOp} {children : List Tree} {core : Tree}
    (h : (node (.binary op) children).Desugars core) :
    ∃ cores, List.Forall₂ Desugars children cores ∧ core = node (.binary op) cores := by
  obtain ⟨_, h⟩ := h
  rw [desugar] at h
  obtain ⟨⟨cores, _⟩, hcores, h⟩ := bind_eq_ok.1 h
  cases h
  exact ⟨cores, desugars_of_desugarAll hcores, rfl⟩

theorem desugars_unary {op : UnaryOp} {children : List Tree} {core : Tree}
    (h : (node (.unary op) children).Desugars core) :
    ∃ cores, List.Forall₂ Desugars children cores ∧ core = node (.unary op) cores := by
  obtain ⟨_, h⟩ := h
  rw [desugar] at h
  obtain ⟨⟨cores, _⟩, hcores, h⟩ := bind_eq_ok.1 h
  cases h
  exact ⟨cores, desugars_of_desugarAll hcores, rfl⟩

theorem desugarAll_of_desugars {trees cores : List Tree} (h : List.Forall₂ Desugars trees cores) :
    ∃ expansions, desugarAll trees = .ok (cores, expansions) := by
  induction h with
  | nil => exact ⟨0, rfl⟩
  | @cons tree core trees cores hfirst _ ih =>
    obtain ⟨expansions, hfirst⟩ := hfirst
    obtain ⟨more, hrest⟩ := ih
    exact ⟨expansions + more, by rw [desugarAll, hfirst, hrest]; rfl⟩

theorem desugars_leaf (a : Atom) : (leaf a).Desugars (leaf a) := ⟨0, rfl⟩

theorem desugars_identifier (x : Name) : (identifier x).Desugars (identifier x) := desugars_leaf _

theorem Desugars.binary {op : BinaryOp} {children cores : List Tree}
    (h : List.Forall₂ Desugars children cores) :
    (node (.binary op) children).Desugars (node (.binary op) cores) := by
  obtain ⟨expansions, hall⟩ := desugarAll_of_desugars h
  exact ⟨expansions, by rw [desugar, hall]; rfl⟩

theorem Desugars.unary {op : UnaryOp} {children cores : List Tree}
    (h : List.Forall₂ Desugars children cores) :
    (node (.unary op) children).Desugars (node (.unary op) cores) := by
  obtain ⟨expansions, hall⟩ := desugarAll_of_desugars h
  exact ⟨expansions, by rw [desugar, hall]; rfl⟩

theorem Desugars.core {c : Construct} {children cores : List Tree}
    (h : List.Forall₂ Desugars children cores) (hexpand : c.expand cores = .ok none) :
    (node (.construct c) children).Desugars (of c cores) := by
  obtain ⟨expansions, hall⟩ := desugarAll_of_desugars h
  refine ⟨expansions, ?_⟩
  rw [desugar, hall]
  exact bind_eq_ok.2 ⟨_, rfl, bind_eq_ok.2 ⟨none, hexpand, rfl⟩⟩

theorem Desugars.expand {c : Construct} {children cores : List Tree} {core : Tree}
    (h : List.Forall₂ Desugars children cores) (hexpand : c.expand cores = .ok (some core)) :
    (node (.construct c) children).Desugars core := by
  obtain ⟨expansions, hall⟩ := desugarAll_of_desugars h
  refine ⟨expansions + 1, ?_⟩
  rw [desugar, hall]
  exact bind_eq_ok.2 ⟨_, rfl, bind_eq_ok.2 ⟨some core, hexpand, rfl⟩⟩

theorem desugars_lambda {children : List Tree} {first second : Tree} {rest : List Tree}
    (h : List.Forall₂ Desugars children (first :: second :: rest)) :
    (of .lambda children).Desugars (curry first (second :: rest)) := by
  cases rest with
  | nil => exact .core h rfl
  | cons third rest => exact .expand h rfl

theorem definition_ok {context : Construct} {tree binder value : Tree}
    (h : tree.definition context = .ok (binder, value)) : tree = define binder value := by
  unfold definition at h
  split at h
  · cases h
    rfl
  · cases h
  · cases h

theorem definitions_ok {context : Construct} {trees binders values : List Tree}
    (h : definitions context trees = .ok (binders, values)) :
    trees = List.zipWith define binders values ∧ binders.length = trees.length ∧
      binders.length = values.length := by
  induction trees generalizing binders values with
  | nil =>
    cases h
    exact ⟨rfl, rfl, rfl⟩
  | cons tree rest ih =>
    rw [definitions] at h
    obtain ⟨⟨binder, value⟩, hfirst, h⟩ := bind_eq_ok.1 h
    obtain ⟨⟨binders, values⟩, hrest, h⟩ := bind_eq_ok.1 h
    cases h
    obtain ⟨hzip, hcount, hlength⟩ := ih hrest
    refine ⟨?_, by simp [hcount], by simp [hlength]⟩
    rw [definition_ok hfirst, hzip]
    rfl

theorem definitions_zipWith (context : Construct) {binders values : List Tree}
    (h : binders.length = values.length) :
    definitions context (List.zipWith define binders values) = .ok (binders, values) := by
  induction binders generalizing values with
  | nil =>
    obtain rfl : values = [] := List.length_eq_zero_iff.1 h.symm
    rfl
  | cons b bs ih =>
    obtain ⟨v, vs, rfl⟩ := List.exists_cons_of_length_eq_add_one h.symm
    rw [List.zipWith_cons_cons, definitions, ih (by simpa using h)]
    rfl

end Tree

namespace Construct

/-- What a construct over core children abbreviates. -/
inductive Expands : Construct → List Tree → Tree → Prop
  | letIn (binder value body : Tree) :
      Expands letIn [.define binder value, body] (.apply (.lambda binder body) value)
  | whereIn (body binder value : Tree) :
      Expands whereIn [body, .define binder value] (.apply (.lambda binder body) value)
  | functionForm (name first second : Tree) (rest : List Tree) :
      Expands functionForm (name :: first :: second :: rest)
        (.define name (.lambda first (.curry second rest)))
  | simultaneous {first second : Tree} {rest values : List Tree} :
      (first :: second :: rest).length = values.length →
      Expands simultaneous (List.zipWith .define (first :: second :: rest) values)
        (.define (.of comma (first :: second :: rest)) (.of tau values))
  | within (outerBinder outerValue binder value : Tree) :
      Expands within [.define outerBinder outerValue, .define binder value]
        (.define binder (.apply (.lambda outerBinder value) outerValue))
  | between (left function right : Tree) :
      Expands between [left, function, right] (.apply (.apply function left) right)
  | recursive (binder value : Tree) :
      Expands recursive [.define binder value]
        (.define binder (.apply (.identifier .fixpoint) (.lambda binder value)))
  | lambda (first second third : Tree) (rest : List Tree) :
      Expands lambda (first :: second :: third :: rest)
        (.lambda first (.curry second (third :: rest)))

variable {cores : List Tree} {core : Tree}

theorem expand_letIn_ok (h : letIn.expand cores = .ok (some core)) : letIn.Expands cores core := by
  rcases cores with _ | ⟨equation, _ | ⟨body, _ | _⟩⟩
  case cons.cons.nil =>
    obtain ⟨⟨binder, value⟩, hdefinition, h⟩ := bind_eq_ok.1 h
    cases h
    rw [Tree.definition_ok hdefinition]
    exact .letIn binder value body
  all_goals cases h

theorem expand_whereIn_ok (h : whereIn.expand cores = .ok (some core)) :
    whereIn.Expands cores core := by
  rcases cores with _ | ⟨body, _ | ⟨equation, _ | _⟩⟩
  case cons.cons.nil =>
    obtain ⟨⟨binder, value⟩, hdefinition, h⟩ := bind_eq_ok.1 h
    cases h
    rw [Tree.definition_ok hdefinition]
    exact .whereIn body binder value
  all_goals cases h

theorem expand_functionForm_ok (h : functionForm.expand cores = .ok (some core)) :
    functionForm.Expands cores core := by
  rcases cores with _ | ⟨name, _ | ⟨first, _ | ⟨second, rest⟩⟩⟩
  case cons.cons.cons =>
    cases h
    exact .functionForm name first second rest
  all_goals cases h

theorem expand_simultaneous_ok (h : simultaneous.expand cores = .ok (some core)) :
    simultaneous.Expands cores core := by
  rcases cores with _ | ⟨first, _ | ⟨second, rest⟩⟩
  case cons.cons =>
    obtain ⟨⟨binders, values⟩, hdefinitions, h⟩ := bind_eq_ok.1 h
    cases h
    obtain ⟨hzip, hcount, hlength⟩ := Tree.definitions_ok hdefinitions
    obtain ⟨first', others, rfl⟩ := List.exists_cons_of_length_eq_add_one hcount
    obtain ⟨second', rest', rfl⟩ := List.exists_cons_of_length_eq_add_one (Nat.succ.inj hcount)
    rw [hzip]
    exact .simultaneous hlength
  all_goals cases h

theorem expand_within_ok (h : within.expand cores = .ok (some core)) :
    within.Expands cores core := by
  rcases cores with _ | ⟨outer, _ | ⟨inner, _ | _⟩⟩
  case cons.cons.nil =>
    obtain ⟨⟨outerBinder, outerValue⟩, houter, h⟩ := bind_eq_ok.1 h
    obtain ⟨⟨binder, value⟩, hinner, h⟩ := bind_eq_ok.1 h
    cases h
    rw [Tree.definition_ok houter, Tree.definition_ok hinner]
    exact .within outerBinder outerValue binder value
  all_goals cases h

theorem expand_between_ok (h : between.expand cores = .ok (some core)) :
    between.Expands cores core := by
  rcases cores with _ | ⟨left, _ | ⟨function, _ | ⟨right, _ | _⟩⟩⟩
  case cons.cons.cons.nil =>
    cases h
    exact .between left function right
  all_goals cases h

theorem expand_recursive_ok (h : recursive.expand cores = .ok (some core)) :
    recursive.Expands cores core := by
  rcases cores with _ | ⟨equation, _ | _⟩
  case cons.nil =>
    obtain ⟨⟨binder, value⟩, hdefinition, h⟩ := bind_eq_ok.1 h
    cases h
    rw [Tree.definition_ok hdefinition]
    exact .recursive binder value
  all_goals cases h

theorem expand_lambda_ok (h : lambda.expand cores = .ok (some core)) :
    lambda.Expands cores core := by
  rcases cores with _ | ⟨first, _ | ⟨second, _ | ⟨third, rest⟩⟩⟩
  case cons.cons.cons =>
    cases h
    exact .lambda first second third rest
  all_goals cases h

theorem expands_of_expand {c : Construct} (h : c.expand cores = .ok (some core)) :
    c.Expands cores core := by
  cases c with
  | letIn => exact expand_letIn_ok h
  | whereIn => exact expand_whereIn_ok h
  | functionForm => exact expand_functionForm_ok h
  | simultaneous => exact expand_simultaneous_ok h
  | within => exact expand_within_ok h
  | between => exact expand_between_ok h
  | recursive => exact expand_recursive_ok h
  | lambda => exact expand_lambda_ok h
  | gamma | tau | comma | definition | conditional => cases h

theorem expand_simultaneous {first second : Tree} {rest values : List Tree}
    (h : (first :: second :: rest).length = values.length) :
    simultaneous.expand (List.zipWith .define (first :: second :: rest) values) =
      .ok (some (.define (.of .comma (first :: second :: rest)) (.of .tau values))) := by
  obtain ⟨v, vs, rfl⟩ := List.exists_cons_of_length_eq_add_one h.symm
  obtain ⟨w, ws, rfl⟩ := List.exists_cons_of_length_eq_add_one (Nat.succ.inj h.symm)
  exact bind_eq_ok.2 ⟨_, Tree.definitions_zipWith simultaneous h, rfl⟩

/-- An abbreviation stands for an application, a function or a definition. -/
theorem Expands.exists_of {c : Construct} (h : c.Expands cores core) :
    ∃ c' children, core = .of c' children ∧ c' ≠ comma := by
  cases h <;> exact ⟨_, _, rfl, nofun⟩

end Construct

namespace Tree

/-- A construct over core children is core already or is expanded. -/
theorem desugars_construct {c : Construct} {children : List Tree} {core : Tree}
    (h : (node (.construct c) children).Desugars core) :
    ∃ cores, List.Forall₂ Desugars children cores ∧
      (c.expand cores = .ok none ∧ core = of c cores ∨ c.Expands cores core) := by
  obtain ⟨_, h⟩ := h
  rw [desugar] at h
  obtain ⟨⟨cores, _⟩, hcores, h⟩ := bind_eq_ok.1 h
  obtain ⟨expanded, hexpand, h⟩ := bind_eq_ok.1 h
  refine ⟨cores, desugars_of_desugarAll hcores, ?_⟩
  cases expanded with
  | none =>
    cases h
    exact .inl ⟨hexpand, rfl⟩
  | some tree =>
    cases h
    exact .inr (expands_of_expand hexpand)

/-- What has a definition as its core form is a definition or an abbreviation of one. -/
theorem desugars_define {label : Label} {children : List Tree} {bound value : Tree}
    (h : (node label children).Desugars (define bound value)) :
    ∃ c cores, label = .construct c ∧ List.Forall₂ Desugars children cores ∧
      (c = .definition ∧ cores = [bound, value] ∨ c.Expands cores (define bound value)) := by
  cases label with
  | atom a => cases desugars_atom h
  | binary op =>
    obtain ⟨cores, -, h⟩ := desugars_binary h
    cases h
  | unary op =>
    obtain ⟨cores, -, h⟩ := desugars_unary h
    cases h
  | construct c =>
    obtain ⟨cores, hcores, ⟨-, h⟩ | hexpands⟩ := desugars_construct h
    · cases h
      exact ⟨.definition, _, rfl, hcores, .inl ⟨rfl, rfl⟩⟩
    · exact ⟨c, cores, rfl, hcores, .inr hexpands⟩

theorem boundNames_of {c : Construct} (hc : c ≠ comma) (children : List Tree)
    (names : List Name) : (of c children).boundNames ≠ .ok names := by
  cases c with
  | comma => exact absurd rfl hc
  | _ => exact nofun

/-- An identifier is its own core form, and the core form of nothing else. -/
theorem eq_of_desugars_name {tree core : Tree} (h : tree.Desugars core) {x : Name}
    (hx : core.name? = some x) : core = tree := by
  obtain ⟨label, children⟩ := tree
  cases label with
  | atom a => exact desugars_atom h
  | binary op =>
    obtain ⟨cores, -, rfl⟩ := desugars_binary h
    cases hx
  | unary op =>
    obtain ⟨cores, -, rfl⟩ := desugars_unary h
    cases hx
  | construct c =>
    obtain ⟨cores, -, ⟨-, rfl⟩ | hexpands⟩ := desugars_construct h
    · cases hx
    · obtain ⟨c', children', rfl, -⟩ := hexpands.exists_of
      cases hx

theorem eq_of_desugars_names {trees cores : List Tree} {names : List Name}
    (h : List.Forall₂ Desugars trees cores) (hnames : parameterNames cores = .ok names) :
    cores = trees := by
  induction h generalizing names with
  | nil => rfl
  | @cons tree core trees cores hfirst _ ih =>
    rw [parameterNames] at hnames
    cases hx : core.name? with
    | none =>
      rw [hx] at hnames
      cases hnames
    | some x =>
      rw [hx] at hnames
      obtain ⟨rest, hrest, -⟩ := bind_eq_ok.1 hnames
      rw [eq_of_desugars_name hfirst hx, ih hrest]

/-- What binds names is its own core form, and the core form of nothing else. -/
theorem eq_of_desugars_bound {tree core : Tree} (h : tree.Desugars core) {names : List Name}
    (hnames : core.boundNames = .ok names) : core = tree := by
  obtain ⟨label, children⟩ := tree
  cases label with
  | atom a => exact desugars_atom h
  | binary op =>
    obtain ⟨cores, -, rfl⟩ := desugars_binary h
    cases hnames
  | unary op =>
    obtain ⟨cores, -, rfl⟩ := desugars_unary h
    cases hnames
  | construct c =>
    obtain ⟨cores, hcores, ⟨-, rfl⟩ | hexpands⟩ := desugars_construct h
    · by_cases hc : c = comma
      · subst hc
        cases hcores with
        | nil => rfl
        | cons hfirst hrest => rw [eq_of_desugars_names (.cons hfirst hrest) hnames, of]
      · exact absurd hnames (boundNames_of hc cores names)
    · obtain ⟨c', children', rfl, hc'⟩ := hexpands.exists_of
      exact absurd hnames (boundNames_of hc' children' names)

end Tree

end EagerLambda
