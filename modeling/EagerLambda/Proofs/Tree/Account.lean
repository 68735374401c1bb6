import EagerLambda.Proofs.Tree.Shape
import Mathlib.Algebra.BigOperators.Group.Multiset.Basic
import Mathlib.Algebra.Order.Group.Multiset
import Mathlib.Tactic.Abel

/-!
# What desugaring adds

Desugaring moves the parts of a tree around, but it neither drops nor repeats any of them, with one
exception: the binder of a recursive definition is there twice afterwards, next to a new identifier
for the fixed-point combinator. So what is added in a whole tree can be read off its nodes.

## Main definitions

- `Tree.abbreviates` — the root is expanded
- `Tree.leaves` — the subtrees labelled with an atom, as often as they occur
- `Tree.copies` — the leaves that are added when the root is expanded
- `Tree.growth` — how many nodes are added when the root is expanded
- `Tree.Adds` — one list of trees is another and what expanding some nodes adds to it

## Main statements

- `Tree.desugar_accounts` — the expansions, the leaves and the size of what desugaring makes
-/

namespace EagerLambda

open Construct

namespace Tree

-- ════════════════════════════════════════════════════════════════════════
-- What the root adds
-- ════════════════════════════════════════════════════════════════════════

/-- Whether the root is expanded. A function of one binder is not. -/
def abbreviates : Tree → Bool
  | node (.construct .lambda) children => decide (2 < children.length)
  | node (.construct c) _ => c.isSugar
  | _ => false

mutual

/-- The subtrees labelled with an atom, those that hang below another atom included. -/
def leaves : Tree → Multiset Tree
  | node (.atom a) children => node (.atom a) children ::ₘ leavesAll children
  | node (.binary _) children => leavesAll children
  | node (.unary _) children => leavesAll children
  | node (.construct _) children => leavesAll children

/-- The subtrees labelled with an atom in the trees of a list. -/
def leavesAll : List Tree → Multiset Tree
  | [] => 0
  | tree :: rest => tree.leaves + leavesAll rest

end

/-- The binder of a recursive definition, once it is desugared. -/
def recursiveBinder? : Tree → Option Tree
  | node (.construct .recursive) [equation] =>
    match equation.desugar with
    | .ok ⟨node (.construct .definition) [binder, _], _⟩ => some binder
    | _ => none
  | _ => none

/-- The leaves that are added when the root is expanded: for a recursive definition the name of the
fixed-point combinator and those of the binder, which is repeated. -/
def copies (tree : Tree) : Multiset Tree :=
  match tree.recursiveBinder? with
  | some binder => identifier .fixpoint ::ₘ binder.leaves
  | none => 0

/-- How many nodes are added when the root is expanded. A function form has two children that are no
parameters, and a function has one that is no binder. -/
def growth (tree : Tree) : Int :=
  match tree with
  | node (.construct .functionForm) children => children.length - 2
  | node (.construct .simultaneous) children => 2 - children.length
  | node (.construct .between) _ => 1
  | node (.construct .lambda) children => (children.length - 1) - 1
  | node (.construct .recursive) _ =>
    match tree.recursiveBinder? with
    | some binder => 2 + binder.size
    | none => 0
  | _ => 0

-- ════════════════════════════════════════════════════════════════════════
-- The leaves and the size of what is made
-- ════════════════════════════════════════════════════════════════════════

@[simp]
theorem leaves_of (c : Construct) (children : List Tree) :
    (of c children).leaves = leavesAll children := by
  rw [of, leaves]

@[simp]
theorem leaves_identifier (x : Name) : (identifier x).leaves = {identifier x} := rfl

@[simp]
theorem leaves_define (binder value : Tree) :
    (define binder value).leaves = binder.leaves + value.leaves := by
  simp [define, leavesAll]

@[simp]
theorem leaves_apply (function argument : Tree) :
    (apply function argument).leaves = function.leaves + argument.leaves := by
  simp [apply, leavesAll]

@[simp]
theorem leaves_lambda (binder body : Tree) :
    (lambda binder body).leaves = binder.leaves + body.leaves := by
  simp [lambda, leavesAll]

@[simp]
theorem leaves_curry (first : Tree) (rest : List Tree) :
    (curry first rest).leaves = first.leaves + leavesAll rest := by
  induction rest generalizing first with
  | nil => simp [curry, leavesAll]
  | cons second rest ih => simp [curry, leavesAll, ih]

theorem leavesAll_definitions {binders values : List Tree} (h : binders.length = values.length) :
    leavesAll (List.zipWith define binders values) = leavesAll binders + leavesAll values := by
  induction binders generalizing values with
  | nil =>
    obtain rfl : values = [] := List.length_eq_zero_iff.1 h.symm
    rfl
  | cons b bs ih =>
    obtain ⟨v, vs, rfl⟩ := List.exists_cons_of_length_eq_add_one h.symm
    simp only [List.zipWith_cons_cons, leavesAll, leaves_define, ih (Nat.succ.inj h)]
    exact add_add_add_comm ..

@[simp]
theorem size_of (c : Construct) (children : List Tree) :
    (of c children).size = sizeAll children + 1 := by
  rw [of, size]

@[simp]
theorem size_identifier (x : Name) : (identifier x).size = 1 := rfl

@[simp]
theorem size_define (binder value : Tree) :
    (define binder value).size = binder.size + value.size + 1 := by
  simp [define, sizeAll]

@[simp]
theorem size_apply (function argument : Tree) :
    (apply function argument).size = function.size + argument.size + 1 := by
  simp [apply, sizeAll]

@[simp]
theorem size_lambda (binder body : Tree) :
    (lambda binder body).size = binder.size + body.size + 1 := by
  simp [lambda, sizeAll]

/-- Nested functions have one node for each binder beside what they are made of. -/
@[simp]
theorem size_curry (first : Tree) (rest : List Tree) :
    (curry first rest).size = first.size + sizeAll rest + rest.length := by
  induction rest generalizing first with
  | nil => simp [curry, sizeAll]
  | cons second rest ih =>
    simp only [curry, size_lambda, ih, sizeAll, List.length_cons]
    omega

theorem sizeAll_definitions {binders values : List Tree} (h : binders.length = values.length) :
    sizeAll (List.zipWith define binders values) =
      sizeAll binders + sizeAll values + binders.length := by
  induction binders generalizing values with
  | nil =>
    obtain rfl : values = [] := List.length_eq_zero_iff.1 h.symm
    rfl
  | cons b bs ih =>
    obtain ⟨v, vs, rfl⟩ := List.exists_cons_of_length_eq_add_one h.symm
    simp only [List.zipWith_cons_cons, sizeAll, size_define, ih (Nat.succ.inj h),
      List.length_cons]
    omega

-- ════════════════════════════════════════════════════════════════════════
-- One node
-- ════════════════════════════════════════════════════════════════════════

theorem recursiveBinder?_eq {equation binder value : Tree}
    (h : equation.Desugars (define binder value)) :
    (of .recursive [equation]).recursiveBinder? = some binder := by
  obtain ⟨expansions, h⟩ := h
  simp only [of, recursiveBinder?, h, define]

/-- What is in `after` is what is in `before` and what expanding the roots of `nodes` adds to that,
and this many of them are expanded. -/
structure Adds (nodes before after : List Tree) (expansions : Nat) : Prop where
  expansions : expansions = nodes.countP abbreviates
  leaves : leavesAll after = leavesAll before + (nodes.map copies).sum
  size : (sizeAll after : Int) = sizeAll before + (nodes.map growth).sum

end Tree

namespace Construct

open EagerLambda.Tree

variable {c : Construct} {trees cores : List Tree} {core : Tree}

/-- A construct that is core adds nothing. -/
theorem Final.adds (h : c.Final trees.length) :
    Adds [of c trees] [of c cores] [of c cores] 0 := by
  obtain ⟨hsugar, hcount⟩ := h
  cases c with
  | lambda => constructor <;> simp [of, abbreviates, copies, growth, recursiveBinder?, hcount rfl]
  | gamma | tau | comma | definition | conditional =>
    constructor <;> simp [of, abbreviates, isSugar, copies, growth, recursiveBinder?]
  | _ => cases hsugar

/-- What each construct adds when it is expanded. -/
theorem Expands.adds (h : c.Expands cores core) (hcores : List.Forall₂ Desugars trees cores) :
    Adds [of c trees] [of c cores] [core] 1 := by
  have hlength := hcores.length_eq
  cases h with
  | recursive binder value =>
    obtain ⟨equation, rfl⟩ := List.length_eq_one_iff.1 hlength
    obtain _ | ⟨hequation, _⟩ := hcores
    have hbinder := recursiveBinder?_eq hequation
    constructor
    · rfl
    · simp only [List.map_cons, List.map_nil, List.sum_cons, List.sum_nil, copies, hbinder,
        leavesAll, leaves_of, leaves_define, leaves_apply, leaves_lambda, leaves_identifier,
        ← Multiset.singleton_add]
      abel
    · have hgrowth : (of .recursive [equation]).growth = 2 + binder.size := by
        rw [of, growth, ← of, hbinder]
      simp only [List.map_cons, List.map_nil, List.sum_cons, List.sum_nil, hgrowth, sizeAll,
        size_of, size_define, size_apply, size_lambda, size_identifier]
      omega
  | simultaneous hvalues =>
    constructor
    · rfl
    · simp [of, leavesAll, leaves, leavesAll_definitions hvalues, copies, recursiveBinder?]
    · simp only [List.map_cons, List.map_nil, List.sum_cons, List.sum_nil, of, growth, hlength,
        sizeAll, size, sizeAll_definitions hvalues, size_define, List.length_zipWith, ← hvalues,
        min_self]
      omega
  | _ =>
    constructor
    · simp [of, abbreviates, isSugar, hlength]
    · simp only [List.map_cons, List.map_nil, List.sum_cons, List.sum_nil, of, copies,
        recursiveBinder?, leavesAll, leaves, leaves_define, leaves_apply, leaves_lambda,
        leaves_curry]
      abel
    · simp only [List.map_cons, List.map_nil, List.sum_cons, List.sum_nil, of, growth, hlength,
        sizeAll, size, size_define, size_apply, size_lambda, size_curry, List.length_cons]
      omega

end Construct

namespace Tree

variable {tree core : Tree} {trees cores : List Tree}

-- ════════════════════════════════════════════════════════════════════════
-- All nodes
-- ════════════════════════════════════════════════════════════════════════

theorem leavesAll_append (before after : List Tree) :
    leavesAll (before ++ after) = leavesAll before + leavesAll after := by
  induction before with
  | nil => simp [leavesAll]
  | cons tree rest ih => simp [leavesAll, ih, add_assoc]

theorem sizeAll_append (before after : List Tree) :
    sizeAll (before ++ after) = sizeAll before + sizeAll after := by
  induction before with
  | nil => simp [sizeAll]
  | cons tree rest ih => simp [sizeAll, ih, Nat.add_assoc]

namespace Adds

variable {nodes nodes' first second third before after before' after' : List Tree} {n n' : Nat}

theorem refl (trees : List Tree) : Adds [] trees trees 0 := by
  constructor <;> simp

/-- Trees are expanded in turn. -/
theorem trans (h : Adds nodes first second n) (h' : Adds nodes' second third n') :
    Adds (nodes ++ nodes') first third (n + n') := by
  constructor
  · rw [List.countP_append, h.expansions, h'.expansions]
  · rw [h'.leaves, h.leaves, List.map_append, List.sum_append, add_assoc]
  · rw [h'.size, h.size, List.map_append, List.sum_append, add_assoc]

/-- Trees are expanded side by side. -/
theorem append (h : Adds nodes before after n) (h' : Adds nodes' before' after' n') :
    Adds (nodes ++ nodes') (before ++ before') (after ++ after') (n + n') := by
  constructor
  · rw [List.countP_append, h.expansions, h'.expansions]
  · rw [leavesAll_append, leavesAll_append, h.leaves, h'.leaves, List.map_append, List.sum_append]
    exact add_add_add_comm ..
  · rw [sizeAll_append, sizeAll_append, Nat.cast_add, Nat.cast_add, h.size, h'.size,
      List.map_append, List.sum_append]
    exact add_add_add_comm ..

/-- What is added to the children of a node is added to the node. -/
theorem node (h : Adds nodes before after n) (label : Label) (hlabel : ∀ a, label ≠ .atom a) :
    Adds nodes [.node label before] [.node label after] n := by
  have hleaves : ∀ children, leavesAll [.node label children] = leavesAll children := by
    intro children
    cases label <;> first | exact absurd rfl (hlabel _) | simp [leavesAll, Tree.leaves]
  constructor
  · exact h.expansions
  · rw [hleaves, hleaves, h.leaves]
  · have hsize := h.size
    simp only [sizeAll, Tree.size]
    omega

end Adds

/-- An operator or an atom is not expanded. -/
theorem adds_of_label (label : Label) (hlabel : ∀ c, label ≠ .construct c) :
    Adds [node label trees] [core] [core] 0 := by
  cases label <;> first
    | exact absurd rfl (hlabel _)
    | (constructor <;> simp [abbreviates, copies, growth, recursiveBinder?])

theorem desugarAll_adds {expansions : Nat}
    (ih : ∀ t ∈ trees, ∀ result, t.desugar = .ok result →
      Adds t.nodes [t] [result.tree] result.expansions)
    (h : desugarAll trees = .ok (cores, expansions)) :
    Adds (nodesAll trees) trees cores expansions := by
  induction trees generalizing cores expansions with
  | nil =>
    cases h
    exact .refl []
  | cons tree rest ihRest =>
    rw [List.forall_mem_cons] at ih
    rw [desugarAll] at h
    obtain ⟨first, hfirst, h⟩ := bind_eq_ok.1 h
    obtain ⟨⟨others, more⟩, hothers, h⟩ := bind_eq_ok.1 h
    cases h
    exact (ih.1 first hfirst).append (ihRest ih.2 hothers)

/-- What desugaring adds is what expanding the nodes adds. -/
theorem desugar_adds {result : Desugared} (h : tree.desugar = .ok result) :
    Adds tree.nodes [tree] [result.tree] result.expansions := by
  induction tree using children_induction generalizing result with
  | node label children ih =>
    cases label with
    | atom a =>
      cases h
      exact adds_of_label (.atom a) (by simp)
    | binary op =>
      rw [desugar] at h
      obtain ⟨⟨cores, expansions⟩, hcores, h⟩ := bind_eq_ok.1 h
      cases h
      exact ((desugarAll_adds ih hcores).node (.binary op) (by simp)).trans
        (adds_of_label (.binary op) (by simp))
    | unary op =>
      rw [desugar] at h
      obtain ⟨⟨cores, expansions⟩, hcores, h⟩ := bind_eq_ok.1 h
      cases h
      exact ((desugarAll_adds ih hcores).node (.unary op) (by simp)).trans
        (adds_of_label (.unary op) (by simp))
    | construct c =>
      rw [desugar] at h
      obtain ⟨⟨cores, expansions⟩, hcores, h⟩ := bind_eq_ok.1 h
      obtain ⟨expanded, hexpand, h⟩ := bind_eq_ok.1 h
      have hdesugars := desugars_of_desugarAll hcores
      have hchildren := (desugarAll_adds ih hcores).node (.construct c) (by simp)
      cases expanded with
      | none =>
        cases h
        have hfinal := final_of_expand hexpand
        rw [← hdesugars.length_eq] at hfinal
        exact hchildren.trans hfinal.adds
      | some core =>
        cases h
        exact hchildren.trans ((expands_of_expand hexpand).adds hdesugars)

/-- **What desugaring adds.** The number of expansions is that of the nodes that abbreviate others.
The leaves of the result are those of the tree, and for every recursive definition the name of the
fixed-point combinator and a second copy of those of its binder. Its size is that of the tree and
what each node adds. -/
theorem desugar_accounts {result : Desugared} (h : tree.desugar = .ok result) :
    result.expansions = tree.nodes.countP abbreviates ∧
    result.tree.leaves = tree.leaves + (tree.nodes.map copies).sum ∧
    (result.tree.size : Int) = tree.size + (tree.nodes.map growth).sum := by
  obtain ⟨hexpansions, hleaves, hsize⟩ := desugar_adds h
  simp only [leavesAll, add_zero] at hleaves
  simp only [sizeAll, Nat.add_zero] at hsize
  exact ⟨hexpansions, hleaves, hsize⟩

/-- In `rec (f x = 1 and y = 2)`, the function form adds its only parameter, the two definitions at
the same time add as much as they save, and the recursion repeats the list of both names. -/
theorem desugar_accounts_simultaneous :
    let f := identifier ⟨17⟩
    let y := identifier ⟨19⟩
    let tree := of .recursive [of .simultaneous
      [of .functionForm [f, identifier ⟨18⟩, leaf (.integer 1)], define y (leaf (.integer 2))]]
    ∃ result, tree.desugar = .ok result ∧ result.expansions = 3 ∧
      result.tree.leaves = tree.leaves + {identifier .fixpoint, f, y} ∧
      (result.tree.size : Int) = tree.size + (1 + 0 + (2 + 3)) := by
  intro f y tree
  have hcount : tree.nodes.countP abbreviates = 3 := by decide
  have hcopies : (tree.nodes.map copies).sum = {identifier .fixpoint, f, y} := by decide
  have hgrowth : (tree.nodes.map growth).sum = 1 + 0 + (2 + 3) := by decide
  rw [← hcount, ← hcopies, ← hgrowth]
  exact ⟨_, rfl, desugar_accounts rfl⟩

end Tree

end EagerLambda
