import EagerLambda.Proofs.Tree.Alpha

/-!
# Free names

A name occurs free in a core tree at an identifier that no function around it binds. A tree is the
same as itself up to names as long as the names that occur free in it are.

## Main definitions

- `Tree.freeNames` — the names that occur free in a core tree

## Main statements

- `Tree.alpha_self` — a tree is the same as itself if its free names are
-/

namespace EagerLambda

variable {naming : Naming} {pairing : Pairing} {x : Name}

namespace Tree

/-- The names that a function with this binder binds. -/
def namesOf (binder : Tree) : List Name :=
  match binder.boundNames with
  | .ok names => names
  | .error _ => []

mutual

/-- The names of the identifiers in a core tree that no function in the tree binds. -/
def freeNames : Tree → List Name
  | node (.atom (.identifier x)) _ => [x]
  | node (.construct .lambda) [binder, body] =>
    body.freeNames.filter fun x => decide (x ∉ binder.namesOf)
  | node _ children => freeNamesAll children

/-- The names that occur free in the trees of a list. -/
def freeNamesAll : List Tree → List Name
  | [] => []
  | tree :: rest => tree.freeNames ++ freeNamesAll rest

end

theorem mem_freeNamesAll {trees : List Tree} {t : Tree} (ht : t ∈ trees) (hx : x ∈ t.freeNames) :
    x ∈ freeNamesAll trees := by
  induction trees with
  | nil => cases ht
  | cons tree rest ih =>
    rw [freeNamesAll, List.mem_append]
    rcases List.mem_cons.1 ht with rfl | ht
    · exact .inl hx
    · exact .inr (ih ht)

theorem mem_freeNames_lambda {binder body : Tree} {names : List Name}
    (h : binder.boundNames = .ok names) :
    x ∈ (lambda binder body).freeNames ↔ x ∈ body.freeNames ∧ x ∉ names := by
  rw [lambda, of, freeNames, List.mem_filter, decide_eq_true_iff, namesOf, h]

end Tree

/-- A name corresponds to itself if an entry binds it or if it does so outside. -/
theorem Pairing.relates_self {entries : Pairing} (hself : ∀ entry ∈ entries, entry.1 = entry.2)
    (h : x ∈ entries.map Prod.fst ∨ pairing.Relates naming x x) :
    (entries ++ pairing).Relates naming x x := by
  induction entries with
  | nil => exact h.resolve_left List.not_mem_nil
  | cons entry rest ih =>
    obtain ⟨a, b⟩ := entry
    obtain rfl : a = b := hself _ List.mem_cons_self
    by_cases hx : x = a
    · exact .inl ⟨hx, hx⟩
    · refine .inr ⟨hx, hx, ih (fun e he => hself e (List.mem_cons_of_mem _ he)) ?_⟩
      rw [List.map_cons, List.mem_cons] at h
      exact h.imp_left fun hmem => hmem.resolve_left hx

theorem Pairing.relates_bind_self {names : List Name}
    (h : x ∈ names ∨ pairing.Relates naming x x) :
    (pairing.bind names names).Relates naming x x := by
  have hsame : List.Forall₂ Eq names names := List.forall₂_same.2 fun _ _ => rfl
  refine relates_self (fun entry hentry => ?_) (h.imp_left fun hx => ?_)
  · exact List.forall₂_zip hsame (List.mem_reverse.1 hentry)
  · rw [List.map_reverse, List.mem_reverse, List.map_fst_zip (Nat.le_refl _)]
    exact hx

namespace Tree

/-- A core tree is the same as itself up to names if its free names correspond to themselves. -/
theorem alpha_self {tree : Tree} (hcore : tree.Core) (hbound : ∀ x, naming.bound x x)
    (hfree : ∀ x ∈ tree.freeNames, pairing.Relates naming x x) :
    Alpha naming pairing tree tree := by
  induction hcore generalizing pairing with
  | atom a =>
    cases a with
    | identifier x => exact .identifier (hfree x List.mem_cons_self)
    | _ => exact .constant nofun
  | binary op _ _ ihLeft ihRight =>
    exact .binary op (ihLeft fun x hx => hfree x (mem_freeNamesAll (by simp) hx))
      (ihRight fun x hx => hfree x (mem_freeNamesAll (by simp) hx))
  | unary op _ ih => exact .unary op (ih fun x hx => hfree x (mem_freeNamesAll (by simp) hx))
  | @lambda binder body names hnames _ ih =>
    refine .lambda hnames hnames (List.forall₂_same.2 fun x _ => hbound x) (ih fun x hx => ?_)
    refine Pairing.relates_bind_self ?_
    by_cases hmem : x ∈ names
    · exact .inl hmem
    · exact .inr (hfree x ((mem_freeNames_lambda hnames).2 ⟨hx, hmem⟩))
  | conditional _ _ _ ihCondition ihThen ihElse =>
    exact .conditional (ihCondition fun x hx => hfree x (mem_freeNamesAll (by simp) hx))
      (ihThen fun x hx => hfree x (mem_freeNamesAll (by simp) hx))
      (ihElse fun x hx => hfree x (mem_freeNamesAll (by simp) hx))
  | tau _ ih =>
    refine alpha_tau_iff.2 (List.forall₂_same.2 fun t ht => ?_)
    exact ih t ht fun x hx => hfree x (mem_freeNamesAll ht hx)
  | gamma _ _ ihFunction ihArgument =>
    exact .gamma (ihFunction fun x hx => hfree x (mem_freeNamesAll (by simp) hx))
      (ihArgument fun x hx => hfree x (mem_freeNamesAll (by simp) hx))

end Tree

end EagerLambda
