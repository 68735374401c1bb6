import EagerLambda.Proofs.Checked
import EagerLambda.Proofs.Tree.Core
import EagerLambda.Tree.Desugar

/-!
# Desugaring with checked indexing

One construct is taken apart by index: the name of a function form is removed from the front of its
children, after it was made sure that there are three of them. So every tree, however malformed, is
desugared without an index out of bounds.

## Main definitions

- `Construct.functionFormChecked` — a function form taken apart by index
- `Tree.desugarChecked` — desugaring with checked indexing

## Main statements

- `Tree.desugarChecked_gives` — desugaring keeps every index in bounds
-/

namespace EagerLambda

namespace Construct

/-- The definition that a function form abbreviates: its first child is the name, its last the body,
and those between are bound one by one. -/
def functionFormChecked (children : List Tree) : Checked Tree :=
  if 3 ≤ children.length then do
    let (name, rest) ← Checked.remove children 0
    match rest.getLast? with
    | none => throw (.malformedNode functionForm.keyword (.childCount "at least 3" 1))
    | some body => pure (.define name (rest.dropLast.foldr .lambda body))
  else
    throw (functionForm.wrongCount "at least 3" children)

/-- The core tree that a construct abbreviates over core children, or nothing if the construct is
core already. -/
def expandChecked (construct : Construct) (children : List Tree) : Checked (Option Tree) :=
  match construct with
  | functionForm => some <$> functionFormChecked children
  | construct => construct.expand children

end Construct

namespace Tree

mutual

/-- The core form of a tree. -/
def desugarChecked : Tree → Checked Desugared
  | node (.atom a) children => pure ⟨node (.atom a) children, 0⟩
  | node (.binary op) children => do
    let (children, expansions) ← desugarAllChecked children
    pure ⟨node (.binary op) children, expansions⟩
  | node (.unary op) children => do
    let (children, expansions) ← desugarAllChecked children
    pure ⟨node (.unary op) children, expansions⟩
  | node (.construct c) children => do
    let (children, expansions) ← desugarAllChecked children
    match ← c.expandChecked children with
    | none => pure ⟨of c children, expansions⟩
    | some tree => pure ⟨tree, expansions + 1⟩

/-- The core forms of the trees of a list. -/
def desugarAllChecked : List Tree → Checked (List Tree × Nat)
  | [] => pure ([], 0)
  | tree :: rest => do
    let first ← tree.desugarChecked
    let (others, expansions) ← desugarAllChecked rest
    pure (first.tree :: others, first.expansions + expansions)

end

/-- Nested functions, made from the innermost outward. -/
theorem foldr_lambda_eq_curry (first : Tree) (rest : List Tree) (body : Tree) :
    (first :: rest).foldr lambda body = curry first (rest ++ [body]) := by
  induction rest generalizing first with
  | nil => rfl
  | cons second rest ih => exact congrArg (lambda first) (ih second)

end Tree

open Checked

namespace Construct

/-- A function form has a first child, and among the others a last one. -/
theorem functionFormChecked_eq (name parameter body : Tree) (between : List Tree) :
    functionFormChecked (name :: parameter :: (between ++ [body])) =
      pure (.define name (.curry parameter (between ++ [body]))) := by
  have hcount : 3 ≤ (name :: parameter :: (between ++ [body])).length := by simp
  have hremove : remove (name :: parameter :: (between ++ [body])) 0 =
      pure (name, parameter :: between ++ [body]) := rfl
  rw [functionFormChecked, if_pos hcount, hremove, pure_bind]
  simp only [List.getLast?_concat, List.dropLast_concat, Tree.foldr_lambda_eq_curry]

theorem expandChecked_gives (c : Construct) (children : List Tree) :
    (c.expandChecked children).Gives (c.expand children) := by
  cases c with
  | functionForm =>
    rcases children with _ | ⟨name, _ | ⟨parameter, _ | ⟨second, rest⟩⟩⟩
    case cons.cons.cons =>
      obtain ⟨between, body, hrest⟩ :=
        (List.eq_nil_or_concat (second :: rest)).resolve_left (List.cons_ne_nil _ _)
      rw [List.concat_eq_append] at hrest
      have hexpand : functionForm.expand (name :: parameter :: second :: rest) =
          .ok (some (.define name (.curry parameter (second :: rest)))) := rfl
      rw [hexpand, hrest, expandChecked, functionFormChecked_eq]
      rfl
    all_goals rfl
  | _ => exact .of_except _

end Construct

namespace Tree

theorem desugarAllChecked_gives {trees : List Tree}
    (ih : ∀ t ∈ trees, t.desugarChecked.Gives t.desugar) :
    (desugarAllChecked trees).Gives (desugarAll trees) := by
  induction trees with
  | nil => exact .of_except _
  | cons t rest ihs =>
    rw [List.forall_mem_cons] at ih
    exact ih.1.bind fun _ _ => (ihs ih.2).bind fun _ _ => .of_except _

/-- Every tree is desugared without an index out of bounds. -/
theorem desugarChecked_gives (tree : Tree) : tree.desugarChecked.Gives tree.desugar := by
  induction tree using children_induction with
  | node label children ih =>
    have hchildren := desugarAllChecked_gives ih
    cases label with
    | atom a => exact .of_except _
    | binary op => exact hchildren.bind fun _ _ => .of_except _
    | unary op => exact hchildren.bind fun _ _ => .of_except _
    | construct c =>
      refine hchildren.bind fun cores _ => (c.expandChecked_gives cores.1).bind fun expanded _ => ?_
      cases expanded with
      | none => exact .of_except _
      | some core => exact .of_except _

end Tree

end EagerLambda
