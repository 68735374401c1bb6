import EagerLambda.Proofs.Tree.Desugar

/-!
# Trees with a hole

Two trees that have the same core form can be exchanged wherever they stand in a larger tree: a node
is desugared from the core forms of its children, so it does not see how these were written. Only
what hangs below an atom is not desugared.

## Main definitions

- `TreeContext` — a tree with a hole in the place of one subtree
- `TreeContext.fill` — the tree with a subtree put into the hole
- `TreeContext.Exposed` — the hole does not hang below an atom

## Main statements

- `TreeContext.desugars_fill` — trees with the same core form can be exchanged
-/

namespace EagerLambda

/-- A tree with a hole in the place of one subtree. -/
inductive TreeContext
  | hole
  | node (label : Label) (before : List Tree) (inside : TreeContext) (after : List Tree)

namespace TreeContext

/-- The tree with `tree` in the place of the hole. -/
def fill : TreeContext → Tree → Tree
  | hole, tree => tree
  | node label before inside after, tree => .node label (before ++ inside.fill tree :: after)

/-- No node above the hole is labelled with an atom. -/
def Exposed : TreeContext → Prop
  | hole => True
  | node label _ inside _ => (∀ a, label ≠ .atom a) ∧ inside.Exposed

end TreeContext

namespace Tree

variable {label : Label} {children children' : List Tree} {core : Tree}

/-- A node has the core form of a node with the same label whose children have the same core
forms. -/
theorem Desugars.of_children (hlabel : ∀ a, label ≠ .atom a)
    (hchildren : ∀ cores, List.Forall₂ Desugars children cores →
      List.Forall₂ Desugars children' cores)
    (h : (node label children).Desugars core) : (node label children').Desugars core := by
  cases label with
  | atom a => exact absurd rfl (hlabel a)
  | binary op =>
    obtain ⟨cores, hcores, rfl⟩ := desugars_binary h
    exact .binary (hchildren cores hcores)
  | unary op =>
    obtain ⟨cores, hcores, rfl⟩ := desugars_unary h
    exact .unary (hchildren cores hcores)
  | construct c =>
    obtain ⟨expansions, h⟩ := h
    rw [desugar] at h
    obtain ⟨⟨cores, _⟩, hcores, h⟩ := bind_eq_ok.1 h
    obtain ⟨expanded, hexpand, h⟩ := bind_eq_ok.1 h
    have hcores' := hchildren cores (desugars_of_desugarAll hcores)
    cases expanded with
    | none =>
      cases h
      exact .core hcores' hexpand
    | some tree =>
      cases h
      exact .expand hcores' hexpand

/-- One tree of a list can be replaced by a tree that has its core form. -/
theorem forall₂_desugars_replace {before after cores : List Tree} {tree tree' : Tree}
    (h : ∀ core, tree.Desugars core → tree'.Desugars core)
    (hcores : List.Forall₂ Desugars (before ++ tree :: after) cores) :
    List.Forall₂ Desugars (before ++ tree' :: after) cores := by
  induction before generalizing cores with
  | nil =>
    cases hcores with
    | cons hfirst hrest => exact .cons (h _ hfirst) hrest
  | cons first before ih =>
    cases hcores with
    | cons hfirst hrest => exact .cons hfirst (ih hrest)

end Tree

namespace TreeContext

open EagerLambda.Tree

variable {context : TreeContext} {tree tree' core : Tree}

theorem desugars_fill_of_imp (hcontext : context.Exposed)
    (h : ∀ core, tree.Desugars core → tree'.Desugars core)
    (hcore : (context.fill tree).Desugars core) : (context.fill tree').Desugars core := by
  induction context generalizing core with
  | hole => exact h core hcore
  | node label before inside after ih =>
    obtain ⟨hlabel, hinside⟩ := hcontext
    refine .of_children hlabel (fun cores hcores => ?_) hcore
    exact forall₂_desugars_replace (fun core => ih hinside) hcores

/-- Trees with the same core form, or with none, can be exchanged wherever they do not hang below an
atom. -/
theorem desugars_fill (hcontext : context.Exposed)
    (h : ∀ core, tree.Desugars core ↔ tree'.Desugars core) (core : Tree) :
    (context.fill tree).Desugars core ↔ (context.fill tree').Desugars core :=
  ⟨desugars_fill_of_imp hcontext fun core => (h core).1,
    desugars_fill_of_imp hcontext fun core => (h core).2⟩

end TreeContext

end EagerLambda
