import EagerLambda.Proofs.Tree.Normal

/-!
# Trees that cannot be desugared

A tree can be desugared exactly if every node in it has the shape that its construct asks for: the
right number of children, and definitions where definitions are wanted. That can be seen from the
tree itself, without desugaring any of it. If there are several nodes without the right shape, the
error is that of the first one, children before parents and from left to right.

## Main definitions

- `Tree.nodes` — the nodes of a tree, children before parents
- `Construct.arity`, `Construct.equations` — what a construct asks for
- `Tree.Misshapen` — the node does not have the shape that its construct asks for
- `Tree.shapeFault?` — the error that is reported for a node

## Main statements

- `Tree.shapeFault?_eq_none_iff` — an error is reported for the nodes without the right shape
- `Tree.desugar_first_fault` — which trees cannot be desugared, and with which error
-/

namespace EagerLambda

open Construct

-- ════════════════════════════════════════════════════════════════════════
-- What a construct asks for
-- ════════════════════════════════════════════════════════════════════════

/-- How many children a construct can have. -/
inductive Arity
  | exactly (count : Nat)
  | atLeast (count : Nat)
  | any
  deriving DecidableEq, Repr

namespace Arity

/-- This many children are allowed. -/
def Admits : Arity → Nat → Prop
  | exactly count, got => got = count
  | atLeast count, got => count ≤ got
  | any, _ => True

instance (arity : Arity) (got : Nat) : Decidable (arity.Admits got) :=
  match arity with
  | exactly count => inferInstanceAs (Decidable (got = count))
  | atLeast count => inferInstanceAs (Decidable (count ≤ got))
  | any => inferInstanceAs (Decidable True)

/-- How messages say what is allowed. -/
def text : Arity → String
  | exactly count => s!"exactly {count}"
  | atLeast count => s!"at least {count}"
  | any => "any number of"

end Arity

namespace Construct

/-- The number of children that a construct asks for when it is desugared. -/
def arity : Construct → Arity
  | letIn | whereIn | within => .exactly 2
  | recursive => .exactly 1
  | between => .exactly 3
  | functionForm => .atLeast 3
  | simultaneous | lambda => .atLeast 2
  | gamma | tau | comma | definition | conditional => .any

/-- The children of a construct that have to be definitions. -/
def equations (c : Construct) (children : List Tree) : List Tree :=
  match c with
  | letIn => children.take 1
  | whereIn => (children.drop 1).take 1
  | within | recursive | simultaneous => children
  | functionForm | between | lambda | gamma | tau | comma | definition | conditional => []

end Construct

/-- The label of what a node with this label is expanded to. -/
def Label.expanded : Label → Label
  | construct .letIn | construct .whereIn | construct .between => construct .gamma
  | construct .functionForm | construct .simultaneous | construct .within
  | construct .recursive => construct .definition
  | label => label

namespace Tree

-- ════════════════════════════════════════════════════════════════════════
-- Nodes and their faults
-- ════════════════════════════════════════════════════════════════════════

mutual

/-- The subtrees at all nodes, children before parents and from left to right. What hangs below an
atom is no part of the tree. -/
def nodes : Tree → List Tree
  | node (.atom a) children => [node (.atom a) children]
  | node (.binary op) children => nodesAll children ++ [node (.binary op) children]
  | node (.unary op) children => nodesAll children ++ [node (.unary op) children]
  | node (.construct c) children => nodesAll children ++ [node (.construct c) children]

/-- The subtrees at all nodes of the trees of a list. -/
def nodesAll : List Tree → List Tree
  | [] => []
  | tree :: rest => tree.nodes ++ nodesAll rest

end

/-- The tree is a definition of a value, or a construct that abbreviates one. -/
inductive Defines : Tree → Prop
  | definition (bound value : Tree) : Defines (define bound value)
  | functionForm (children : List Tree) : Defines (of .functionForm children)
  | simultaneous (children : List Tree) : Defines (of .simultaneous children)
  | within (children : List Tree) : Defines (of .within children)
  | recursive (children : List Tree) : Defines (of .recursive children)

/-- The root has the wrong number of children, or no definition where one is wanted. -/
inductive Misshapen : Tree → Prop
  | count {c : Construct} {children : List Tree} : ¬ c.arity.Admits children.length →
      Misshapen (of c children)
  | equation {c : Construct} {children : List Tree} {tree : Tree} : tree ∈ c.equations children →
      ¬ tree.Defines → Misshapen (of c children)

/-- The error for a tree that stands inside `context` in the place of a definition. A definition
with the wrong number of parts is reported as such. Any other tree is reported with the label that
it has by the time its parent is looked at. -/
def definitionFault? (context : Construct) : Tree → Option Error
  | node (.construct .definition) children =>
    if children.length = 2 then none
    else some (.malformedNode Construct.definition.keyword
      (.childCount (Arity.exactly 2).text children.length))
  | node label _ =>
    if label.expanded = .construct .definition then none
    else some (.malformedNode context.keyword (.notDefinition label.expanded.text))

/-- The error for the root of a tree: its number of children is looked at first, then its
definitions in order. -/
def shapeFault? : Tree → Option Error
  | node (.construct c) children =>
    if c.arity.Admits children.length then
      (c.equations children).findSome? (definitionFault? c)
    else some (.malformedNode c.keyword (.childCount c.arity.text children.length))
  | _ => none

theorem definitionFault?_eq_none_iff {context : Construct} {tree : Tree} :
    tree.definitionFault? context = none ↔ tree.Defines := by
  obtain ⟨label, children⟩ := tree
  constructor
  · intro h
    cases label with
    | construct c =>
      cases c with
      | definition =>
        rw [definitionFault?] at h
        split at h
        · next hcount =>
          obtain ⟨bound, value, rfl⟩ := List.length_eq_two.1 hcount
          exact .definition bound value
        · cases h
      | functionForm => exact .functionForm children
      | simultaneous => exact .simultaneous children
      | within => exact .within children
      | recursive => exact .recursive children
      | _ => cases h
    | _ => cases h
  · intro h
    cases h <;> rfl

theorem shapeFault?_eq_none_iff {tree : Tree} : tree.shapeFault? = none ↔ ¬ tree.Misshapen := by
  obtain ⟨label, children⟩ := tree
  cases label with
  | construct c =>
    rw [shapeFault?]
    split
    · next hcount =>
      rw [List.findSome?_eq_none_iff]
      constructor
      · rintro h (hnot | ⟨hmem, hnot⟩)
        · exact hnot hcount
        · exact hnot (definitionFault?_eq_none_iff.1 (h _ hmem))
      · intro h tree hmem
        exact definitionFault?_eq_none_iff.2 (not_not.1 fun hnot => h (.equation hmem hnot))
    · next hcount => exact iff_of_false nofun fun h => h (.count hcount)
  | _ => exact iff_of_true rfl nofun

theorem shapeFault?_ofNode {tree : Tree} {error : Error} (h : tree.shapeFault? = some error) :
    ∃ construct fault, error = .malformedNode construct fault := by
  obtain ⟨label, children⟩ := tree
  cases label with
  | construct c =>
    rw [shapeFault?] at h
    split at h
    · obtain ⟨tree, -, h⟩ := List.exists_of_findSome?_eq_some h
      unfold definitionFault? at h
      split at h <;> split at h <;> cases h <;> exact ⟨_, _, rfl⟩
    · cases h
      exact ⟨_, _, rfl⟩
  | _ => cases h

end Tree

-- ════════════════════════════════════════════════════════════════════════
-- Computations that fail if something is wrong
-- ════════════════════════════════════════════════════════════════════════

/-- The computation fails with the given error, or succeeds if there is none. -/
inductive Decides {α : Type} : Option Error → Except Error α → Prop
  | ok (a : α) : Decides none (.ok a)
  | error (e : Error) : Decides (some e) (.error e)

namespace Decides

variable {α β : Type} {fault? next? : Option Error} {r : Except Error α} {f : α → Except Error β}

/-- A computation in two parts: if something is wrong with the first, that is the error. -/
theorem bind (h : Decides fault? r) (hnext : ∀ a, r = .ok a → Decides next? (f a)) :
    Decides (fault?.or next?) (r >>= f) := by
  cases h with
  | ok a => exact hnext a rfl
  | error e => exact .error e

/-- A computation whose second part cannot fail. -/
theorem map (h : Decides fault? r) {g : α → β} (hf : ∀ a, f a = .ok (g a)) :
    Decides fault? (r >>= f) := by
  rw [← Option.or_none (o := fault?)]
  exact h.bind fun a _ => hf a ▸ .ok (g a)

end Decides

theorem findSome?_cons_or {α β : Type} (f : α → Option β) (a : α) (l : List α) :
    (a :: l).findSome? f = (f a).or (l.findSome? f) := by
  rw [List.findSome?_cons]
  cases f a <;> rfl

-- ════════════════════════════════════════════════════════════════════════
-- The fault that is found
-- ════════════════════════════════════════════════════════════════════════

namespace Construct

/-- A construct over the wrong number of children is refused. -/
theorem expand_of_not_admits {c : Construct} {cores : List Tree}
    (h : ¬ c.arity.Admits cores.length) :
    c.expand cores = .error (c.wrongCount c.arity.text cores) := by
  cases c with
  | letIn | whereIn | within =>
    match cores with
    | [] | [_] | _ :: _ :: _ :: _ => rfl
    | [_, _] => exact absurd rfl h
  | recursive =>
    match cores with
    | [] | _ :: _ :: _ => rfl
    | [_] => exact absurd rfl h
  | between =>
    match cores with
    | [] | [_] | [_, _] | _ :: _ :: _ :: _ :: _ => rfl
    | [_, _, _] => exact absurd rfl h
  | functionForm =>
    match cores with
    | [] | [_] | [_, _] => rfl
    | _ :: _ :: _ :: rest => exact absurd (Nat.le_add_left 3 rest.length) h
  | simultaneous | lambda =>
    match cores with
    | [] | [_] => rfl
    | _ :: _ :: rest => exact absurd (Nat.le_add_left 2 rest.length) h
  | gamma | tau | comma | definition | conditional => exact absurd trivial h

end Construct

namespace Tree

variable {tree core : Tree} {trees cores : List Tree}

/-- Whether a core form is accepted as a definition can be seen from the tree. -/
theorem Desugars.definition_decides (h : tree.Desugars core) (context : Construct) :
    Decides (tree.definitionFault? context) (core.definition context) := by
  obtain ⟨label, children⟩ := tree
  cases label with
  | atom a =>
    rw [desugars_atom h]
    exact .error _
  | binary op =>
    obtain ⟨cores, -, rfl⟩ := desugars_binary h
    exact .error _
  | unary op =>
    obtain ⟨cores, -, rfl⟩ := desugars_unary h
    exact .error _
  | construct c =>
    obtain ⟨cores, hcores, ⟨hexpand, rfl⟩ | hexpands⟩ := desugars_construct h
    · cases c with
      | definition =>
        rw [definitionFault?, hcores.length_eq]
        match cores with
        | [] | [_] | _ :: _ :: _ :: _ => exact .error _
        | [bound, value] => exact .ok (bound, value)
      | lambda | gamma | tau | comma | conditional => exact .error _
      | _ => exact absurd hexpand (expand_ne_none rfl cores)
    · cases hexpands with
      | letIn | whereIn | between | lambda => exact .error _
      | functionForm | simultaneous | within | recursive => exact .ok _

theorem definitions_decides (h : List.Forall₂ Desugars trees cores) (context : Construct) :
    Decides (trees.findSome? (definitionFault? context)) (definitions context cores) := by
  induction h with
  | nil => exact .ok _
  | cons hfirst _ ih =>
    rw [findSome?_cons_or]
    exact (hfirst.definition_decides context).bind fun _ _ => ih.map fun _ => rfl

/-- Whether a construct is accepted can be seen from its children as they were written. -/
theorem expand_decides (c : Construct) (h : List.Forall₂ Desugars trees cores) :
    Decides (of c trees).shapeFault? (c.expand cores) := by
  -- What is asked of a single definition is what is asked of a list with nothing else in it.
  have hsingle : ∀ {context : Construct} {tree core : Tree}, tree.Desugars core →
      Decides ([tree].findSome? (definitionFault? context)) (core.definition context) := by
    intro context tree core htree
    rw [findSome?_cons_or, List.findSome?_nil, Option.or_none]
    exact htree.definition_decides context
  rw [of, shapeFault?, h.length_eq]
  split
  case isFalse hcount =>
    rw [expand_of_not_admits hcount]
    exact .error _
  case isTrue hcount =>
    cases c with
    | letIn =>
      obtain ⟨equation, body, rfl⟩ := List.length_eq_two.1 hcount
      obtain _ | ⟨hequation, _ | ⟨hbody, _ | _⟩⟩ := h
      exact (hsingle hequation).map fun _ => rfl
    | whereIn =>
      obtain ⟨body, equation, rfl⟩ := List.length_eq_two.1 hcount
      obtain _ | ⟨hbody, _ | ⟨hequation, _ | _⟩⟩ := h
      exact (hsingle hequation).map fun _ => rfl
    | recursive =>
      obtain ⟨equation, rfl⟩ := List.length_eq_one_iff.1 hcount
      obtain _ | ⟨hequation, _ | _⟩ := h
      exact (hsingle hequation).map fun _ => rfl
    | within =>
      obtain ⟨outer, inner, rfl⟩ := List.length_eq_two.1 hcount
      obtain _ | ⟨houter, _ | ⟨hinner, _ | _⟩⟩ := h
      rw [Construct.equations, findSome?_cons_or]
      exact (houter.definition_decides within).bind fun _ _ => (hsingle hinner).map fun _ => rfl
    | simultaneous =>
      rcases cores with _ | ⟨_, _ | ⟨_, _⟩⟩
      case cons.cons => exact (definitions_decides h simultaneous).map fun _ => rfl
      all_goals exact absurd hcount (by simp [arity, Arity.Admits])
    | functionForm =>
      rcases cores with _ | ⟨_, _ | ⟨_, _ | ⟨_, _⟩⟩⟩
      case cons.cons.cons => exact .ok _
      all_goals exact absurd hcount (by simp [arity, Arity.Admits])
    | between =>
      obtain ⟨left, function, right, rfl⟩ := List.length_eq_three.1 hcount
      exact .ok _
    | lambda =>
      rcases cores with _ | ⟨_, _ | ⟨_, _ | ⟨_, _⟩⟩⟩
      case cons.cons.nil | cons.cons.cons => exact .ok _
      all_goals exact absurd hcount (by simp [arity, Arity.Admits])
    | gamma | tau | comma | definition | conditional => exact .ok _

theorem desugarAll_decides
    (ih : ∀ t ∈ trees, Decides (t.nodes.findSome? shapeFault?) t.desugar) :
    Decides ((nodesAll trees).findSome? shapeFault?) (desugarAll trees) := by
  induction trees with
  | nil => exact .ok _
  | cons tree rest ihRest =>
    rw [List.forall_mem_cons] at ih
    rw [nodesAll, List.findSome?_append, desugarAll]
    exact ih.1.bind fun _ _ => (ihRest ih.2).map fun _ => rfl

/-- Desugaring fails with the first error that is to be reported for a node. -/
theorem desugar_decides (tree : Tree) :
    Decides (tree.nodes.findSome? shapeFault?) tree.desugar := by
  induction tree using children_induction with
  | node label children ih =>
    have hall := desugarAll_decides ih
    cases label with
    | atom a => exact .ok _
    | binary op =>
      rw [nodes, List.findSome?_append, desugar]
      exact hall.bind fun _ _ => .ok _
    | unary op =>
      rw [nodes, List.findSome?_append, desugar]
      exact hall.bind fun _ _ => .ok _
    | construct c =>
      rw [nodes, List.findSome?_append, desugar]
      refine hall.bind fun result hcores => ?_
      obtain ⟨cores, expansions⟩ := result
      rw [findSome?_cons_or, List.findSome?_nil]
      refine (expand_decides c (desugars_of_desugarAll hcores)).bind fun expanded _ => ?_
      cases expanded <;> exact .ok _

/-- **When and how desugaring fails.** A tree cannot be desugared exactly if there is a node in it
that does not have the shape that its construct asks for. The error is the one to be reported for
the first such node, children before parents and from left to right; it names a construct and what
is wrong with it. -/
theorem desugar_first_fault (tree : Tree) :
    ((∃ error, tree.desugar = .error error) ↔ ∃ t ∈ tree.nodes, t.Misshapen) ∧
    (∀ error, tree.desugar = .error error ↔ ∃ before t after, tree.nodes = before ++ t :: after ∧
      (∀ u ∈ before, ¬ u.Misshapen) ∧ t.Misshapen ∧ t.shapeFault? = some error) ∧
    ∀ error, tree.desugar = .error error →
      ∃ construct fault, error = .malformedNode construct fault := by
  have hfound : ∀ error, tree.desugar = .error error ↔
      tree.nodes.findSome? shapeFault? = some error := by
    intro error
    have hdecides := desugar_decides tree
    generalize tree.nodes.findSome? shapeFault? = fault? at hdecides
    generalize tree.desugar = r at hdecides
    cases hdecides <;> simp
  refine ⟨?_, fun error => ?_, fun error herror => ?_⟩
  · simp only [hfound, ← Option.isSome_iff_exists, List.isSome_findSome?, List.any_eq_true]
    refine exists_congr fun t => and_congr_right fun _ => ?_
    rw [← Option.ne_none_iff_isSome, ne_eq, shapeFault?_eq_none_iff, not_not]
  · rw [hfound, List.findSome?_eq_some_iff]
    simp only [shapeFault?_eq_none_iff]
    constructor
    · rintro ⟨before, t, after, hnodes, hfault, hbefore⟩
      have hshape : t.Misshapen := by
        rw [← not_not (a := t.Misshapen), ← shapeFault?_eq_none_iff, hfault]
        nofun
      exact ⟨before, t, after, hnodes, hbefore, hshape, hfault⟩
    · rintro ⟨before, t, after, hnodes, hbefore, -, hfault⟩
      exact ⟨before, t, after, hnodes, hfault, hbefore⟩
  · obtain ⟨t, -, hfault⟩ := List.exists_of_findSome?_eq_some ((hfound error).1 herror)
    exact shapeFault?_ofNode hfault

/-- In `let (and (x = 1) (let 2)) 3 4`, there are too many children below the outer `let` and too
few below the inner one, which moreover is no definition. Innermost comes first. -/
theorem desugar_first_fault_innermost :
    let equation := define (identifier ⟨17⟩) (leaf (.integer 1))
    let inner := of .letIn [leaf (.integer 2)]
    let tree := of .letIn [of .simultaneous [equation, inner], leaf (.integer 3), leaf (.integer 4)]
    tree.Misshapen ∧ (of .simultaneous [equation, inner]).Misshapen ∧ inner.Misshapen ∧
      tree.desugar = .error (.malformedNode "let" (.childCount "exactly 2" 1)) := by
  intro equation inner tree
  have hequation : ¬ equation.Misshapen := shapeFault?_eq_none_iff.1 rfl
  have hnot : ¬ (of .letIn [leaf (.integer 2)]).Defines := nofun
  have hinner : inner.Misshapen := .count (by decide)
  refine ⟨.count (by decide), .equation (List.mem_cons_of_mem _ List.mem_cons_self) hnot, hinner,
    ((desugar_first_fault tree).2.1 _).2 ⟨[identifier ⟨17⟩, leaf (.integer 1), equation,
      leaf (.integer 2)], inner, _, rfl, ?_, hinner, rfl⟩⟩
  simp only [List.forall_mem_cons]
  exact ⟨shapeFault?_eq_none_iff.1 rfl, shapeFault?_eq_none_iff.1 rfl, hequation,
    shapeFault?_eq_none_iff.1 rfl, nofun⟩

end Tree

end EagerLambda
