import EagerLambda.Program
import EagerLambda.Proofs.Control.Completeness
import EagerLambda.Proofs.Tree.Grammar
import EagerLambda.Proofs.Value.Failure

/-!
# Which trees are compiled

A tree is compiled if and only if it is an expression of the grammar, provided that there are
numbers for its control structures. Two passes share the check: desugaring rejects the constructs
that it cannot expand, and the layout rejects what is not core after the expansion. Neither fails in
another way.

## Main definitions

- `Error.OfNode`, `Error.OfControl` — the errors of desugaring and of the layout
- `Tree.Fits` — there are numbers for the structures of a program

## Main statements

- `Tree.desugar_fails`, `Tree.ofTree_fails` — how the two passes fail
- `Program.compile_iff_grammatical` — the trees that are compiled
-/

namespace EagerLambda

open Control

/-- The error is about a construct that does not have the right shape. -/
def Error.OfNode : Error → Prop
  | .malformedNode .. => True
  | _ => False

/-- The error is about a core tree that does not have the right shape. -/
def Error.OfControl : Error → Prop
  | .malformedControl _ => True
  | _ => False

-- ════════════════════════════════════════════════════════════════════════
-- Desugaring
-- ════════════════════════════════════════════════════════════════════════

namespace Tree

theorem definition_fails (context : Construct) (tree : Tree) :
    FailsWith Error.OfNode (tree.definition context) := by
  unfold definition
  split
  · exact .ok _
  · exact .error trivial
  · exact .error trivial

theorem definitions_fails (context : Construct) (trees : List Tree) :
    FailsWith Error.OfNode (definitions context trees) := by
  induction trees with
  | nil => exact .ok _
  | cons tree rest ih =>
    exact (definition_fails context tree).bind fun _ => ih.bind fun _ => .ok _

end Tree

theorem Construct.expand_fails (c : Construct) (children : List Tree) :
    FailsWith Error.OfNode (c.expand children) := by
  unfold expand
  split
  -- A construct fails if it has another number of children or if one of them is no definition.
  all_goals first
    | exact .ok _
    | exact .error trivial
    | exact (Tree.definition_fails _ _).bind fun _ => .ok _
    | exact (Tree.definitions_fails _ _).bind fun _ => .ok _
    | exact (Tree.definition_fails _ _).bind fun _ =>
        (Tree.definition_fails _ _).bind fun _ => .ok _

namespace Tree

theorem desugarAll_fails {trees : List Tree}
    (ih : ∀ t ∈ trees, FailsWith Error.OfNode t.desugar) :
    FailsWith Error.OfNode (desugarAll trees) := by
  induction trees with
  | nil => exact .ok _
  | cons tree rest ihRest =>
    have hrest := ihRest fun t ht => ih t (List.mem_cons_of_mem tree ht)
    exact (ih tree List.mem_cons_self).bind fun _ => hrest.bind fun _ => .ok _

/-- Desugaring fails with an error about a construct only. -/
theorem desugar_fails (tree : Tree) : FailsWith Error.OfNode tree.desugar := by
  induction tree using children_induction with
  | node label children ih =>
    have hchildren := desugarAll_fails ih
    cases label with
    | atom a => exact .ok _
    | binary op => exact hchildren.bind fun _ => .ok _
    | unary op => exact hchildren.bind fun _ => .ok _
    | construct c =>
      refine hchildren.bind fun (cores, _) => (c.expand_fails cores).bind fun expanded => ?_
      cases expanded with
      | none => exact .ok _
      | some core => exact .ok _

-- ════════════════════════════════════════════════════════════════════════
-- Layout
-- ════════════════════════════════════════════════════════════════════════

theorem parameterNames_fails (trees : List Tree) :
    FailsWith Error.OfControl (parameterNames trees) := by
  induction trees with
  | nil => exact .ok _
  | cons tree rest ih =>
    rw [parameterNames]
    split
    · exact .error trivial
    · exact ih.bind fun _ => .ok _

theorem boundNames_fails (binder : Tree) : FailsWith Error.OfControl binder.boundNames := by
  unfold boundNames
  split
  · exact parameterNames_fails _
  · split
    · exact .error trivial
    · exact .ok _

theorem allocate_fails (next : Nat) : FailsWith Error.OfControl (allocate next) := by
  rw [allocate]
  split
  · exact .ok _
  · exact .error trivial

theorem fragmentAll_fails {trees : List Tree}
    (ih : ∀ t ∈ trees, ∀ next, FailsWith Error.OfControl (t.fragment next)) (next : Nat) :
    FailsWith Error.OfControl (fragmentAll next trees) := by
  induction trees generalizing next with
  | nil => exact .ok _
  | cons tree rest ihRest =>
    refine (ih tree List.mem_cons_self next).bind fun first => ?_
    exact (ihRest (fun t ht => ih t (List.mem_cons_of_mem tree ht)) first.next).bind fun _ => .ok _

/-- The layout fails with an error about a core tree only. -/
theorem fragment_fails (tree : Tree) (next : Nat) :
    FailsWith Error.OfControl (tree.fragment next) := by
  induction tree using children_induction generalizing next with
  | node label children ih =>
    rw [fragment.eq_def]
    split
    case h_1 a heq => exact .ok _
    case h_3 op left right heq =>
      cases heq
      refine (ih left (by simp) next).bind fun leftCode => ?_
      exact (ih right (by simp) leftCode.next).bind fun _ => .ok _
    case h_5 op operand heq =>
      cases heq
      exact (ih operand (by simp) next).bind fun _ => .ok _
    case h_7 binder body heq =>
      cases heq
      refine (boundNames_fails binder).bind fun params => (allocate_fails next).bind fun id => ?_
      exact (ih body (by simp) (next + 1)).bind fun _ => .ok _
    case h_9 condition thenTree elseTree heq =>
      cases heq
      refine (allocate_fails next).bind fun thenId => ?_
      refine (ih thenTree (by simp) (next + 1)).bind fun thenCode => ?_
      refine (allocate_fails thenCode.next).bind fun elseId => ?_
      refine (ih elseTree (by simp) (thenCode.next + 1)).bind fun elseCode => ?_
      exact (ih condition (by simp) elseCode.next).bind fun _ => .ok _
    case h_11 components heq =>
      cases heq
      exact (fragmentAll_fails ih next).bind fun _ => .ok _
    case h_12 function argument heq =>
      cases heq
      refine (ih function (by simp) next).bind fun functionCode => ?_
      exact (ih argument (by simp) functionCode.next).bind fun _ => .ok _
    -- What is left are nodes with another number of children and constructs that are not core.
    all_goals exact .error trivial

theorem ofTree_fails (tree : Tree) : FailsWith Error.OfControl (Table.ofTree tree) := by
  refine (allocate_fails 0).bind fun _ => (fragment_fails tree 1).bind fun program => ?_
  rw [Table.ofItems?]
  split
  · exact .error trivial
  · exact .ok _

/-- There are numbers for the structures of a program: one for the program itself, and those that
its core form adds. -/
def Fits (tree : Tree) : Prop :=
  ∀ core, tree.Desugars core → core.Core → core.structureCount + 1 ≤ handleLimit

end Tree

namespace Program

theorem compile_fails (tree : Tree) :
    FailsWith (fun error => error.OfNode ∨ error.OfControl) (compile tree) :=
  (tree.desugar_fails.mono fun _ => .inl).bind fun core =>
    core.tree.ofTree_fails.mono fun _ => .inr

/-- **The compiled trees.** A tree for whose structures there are numbers is compiled if and only if
it is an expression of the grammar. Any other tree is rejected because of its shape, by desugaring
or by the layout. -/
theorem compile_iff_grammatical {tree : Tree} (hfits : tree.Fits) :
    ((∃ table, compile tree = .ok table) ↔ tree.Grammatical .expression) ∧
      (¬ tree.Grammatical .expression →
        ∃ error, compile tree = .error error ∧ (error.OfNode ∨ error.OfControl)) := by
  have hiff : (∃ table, compile tree = .ok table) ↔ tree.Grammatical .expression := by
    rw [Tree.grammatical_iff]
    constructor
    · rintro ⟨table, h⟩
      obtain ⟨core, hcore, htable⟩ := bind_eq_ok.1 h
      obtain ⟨code, hcode, -⟩ := Table.ofTree_eq_ok.1 htable
      exact ⟨core.tree, ⟨core.expansions, hcore⟩, Tree.core_of_fragment hcode⟩
    · rintro ⟨core, hdesugars, hcore⟩
      obtain ⟨table, htable⟩ := Tree.exists_table hcore (hfits core hdesugars hcore)
      obtain ⟨expansions, hdesugar⟩ := hdesugars
      exact ⟨table, bind_eq_ok.2 ⟨_, hdesugar, htable⟩⟩
  refine ⟨hiff, fun hnot => ?_⟩
  cases hcompile : compile tree with
  | ok table => exact absurd (hiff.1 ⟨table, hcompile⟩) hnot
  | error e => exact ⟨e, rfl, compile_fails tree e hcompile⟩

/-- Two names are defined at the same time, one of them within a definition of its own, and the
body adds what they are bound to. -/
def simultaneousSum : Tree :=
  let left : Tree := .identifier ⟨17⟩
  let right : Tree := .identifier ⟨18⟩
  let inner : Tree := .identifier ⟨19⟩
  let shifted : Tree := .of .within [.define inner (.leaf (.integer 1)),
    .define right (.node (.binary .add) [inner, .leaf (.integer 1)])]
  .of .letIn [.of .simultaneous [.define left (.leaf (.integer 5)), shifted],
    .node (.binary .add) [left, right]]

theorem simultaneousSum_accepted : simultaneousSum.Fits ∧
    (∃ table, compile simultaneousSum = .ok table) ∧ simultaneousSum.Grammatical .expression := by
  have hfits : simultaneousSum.Fits := by
    intro core hcore _
    obtain rfl := Tree.desugars_unique hcore ⟨_, rfl⟩
    decide
  have hcompile : ∃ table, compile simultaneousSum = .ok table := ⟨_, rfl⟩
  exact ⟨hfits, hcompile, (compile_iff_grammatical hfits).1.1 hcompile⟩

end Program

end EagerLambda
