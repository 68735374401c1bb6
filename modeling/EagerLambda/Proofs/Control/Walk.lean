import EagerLambda.Proofs.Control.Layout

/-!
# The order in which structures are numbered

The layout of a tree numbers its structures in the order of a walk: a structure comes before those
that its items lead to, and these before the next structure. What is known about references follows
from this order: each number is referred to once, and none is referred to that was not given to a
structure.

## Main definitions

- `Control.DepthFirst` — sequences of items in the order of a walk

## Main statements

- `Control.DepthFirst.perm` — the walk leads to every number once
- `Tree.depthFirst_of_fragment` — the structures of a layout are in the order of a walk
- `Tree.depthFirst_of_program` — and so are those of a program
-/

namespace EagerLambda

open Control

namespace Control

/-- The sequences of items are those that a walk from these structures reaches, numbered from `next`
on: each comes before those that it leads to, and these before the next of the structures. No
sequence is empty. -/
inductive DepthFirst : Nat → List ControlId → List (List Item) → Prop
  | nil (next : Nat) : DepthFirst next [] []
  | cons {next : Nat} {items : List Item} {roots : List ControlId} {below rest : List (List Item)} :
      items ≠ [] → DepthFirst (next + 1) (items.flatMap Item.targets) below →
      DepthFirst (next + 1 + below.length) roots rest →
      DepthFirst next (⟨next⟩ :: roots) (items :: (below ++ rest))

namespace DepthFirst

variable {next : Nat} {roots roots' : List ControlId} {sequences sequences' : List (List Item)}

theorem next_add_length (next : Nat) (items : List Item) (below rest : List (List Item)) :
    next + (items :: (below ++ rest)).length = next + 1 + below.length + rest.length := by
  rw [List.length_cons, List.length_append]
  omega

/-- Two walks after one another. -/
theorem append (h : DepthFirst next roots sequences)
    (h' : DepthFirst (next + sequences.length) roots' sequences') :
    DepthFirst next (roots ++ roots') (sequences ++ sequences') := by
  induction h with
  | nil next => exact h'
  | @cons next items roots below rest hne hbelow _ _ ihRest =>
    rw [next_add_length] at h'
    rw [List.cons_append, List.cons_append, List.append_assoc]
    exact .cons hne hbelow (ihRest h')

theorem ne_nil (h : DepthFirst next roots sequences) : ∀ items ∈ sequences, items ≠ [] := by
  induction h with
  | nil next => exact nofun
  | cons hne _ _ ihBelow ihRest =>
    exact List.forall_mem_cons.2 ⟨hne, List.forall_mem_append.2 ⟨ihBelow, ihRest⟩⟩

/-- The walk leads to every number once: it starts there, or one item refers to it. -/
theorem perm (h : DepthFirst next roots sequences) :
    (roots ++ sequences.flatMap (List.flatMap Item.targets)).Perm
      ((List.range' next sequences.length).map ControlId.mk) := by
  induction h with
  | nil next => exact .refl _
  | @cons next items roots below rest _ _ _ ihBelow ihRest =>
    have hrange : (List.range' next (items :: (below ++ rest)).length).map ControlId.mk =
        ⟨next⟩ :: ((List.range' (next + 1) below.length).map ControlId.mk ++
          (List.range' (next + 1 + below.length) rest.length).map ControlId.mk) := by
      rw [List.length_cons, List.length_append, List.range'_succ, List.range'_append_1.symm,
        List.map_cons, List.map_append]
    rw [hrange, List.cons_append, List.flatMap_cons, List.flatMap_append]
    refine .cons _ (.trans ?_ (ihBelow.append ihRest))
    -- The walk goes through what the items lead to before it comes to the other roots.
    have hswap : (roots ++ (items.flatMap Item.targets ++
        below.flatMap (List.flatMap Item.targets))).Perm (items.flatMap Item.targets ++
          below.flatMap (List.flatMap Item.targets) ++ roots) := List.perm_append_comm
    simpa only [List.append_assoc] using
      hswap.append_right (rest.flatMap (List.flatMap Item.targets))

theorem mem_range' {id : ControlId} {length : Nat} :
    id ∈ (List.range' next length).map ControlId.mk ↔
      next ≤ id.index ∧ id.index < next + length := by
  rw [List.mem_map]
  constructor
  · rintro ⟨index, hindex, rfl⟩
    exact List.mem_range'_1.1 hindex
  · intro h
    exact ⟨id.index, List.mem_range'_1.2 h, rfl⟩

/-- What an item refers to has got a number. -/
theorem target_lt (h : DepthFirst next roots sequences) {items : List Item}
    (hitems : items ∈ sequences) {id : ControlId} (hid : id ∈ items.flatMap Item.targets) :
    id.index < next + sequences.length := by
  have hmem : id ∈ roots ++ sequences.flatMap (List.flatMap Item.targets) :=
    List.mem_append_right roots (List.mem_flatMap.2 ⟨items, hitems, hid⟩)
  exact (mem_range'.1 (h.perm.mem_iff.1 hmem)).2

end DepthFirst

end Control

namespace Tree

variable {tree left right : Tree} {next : Nat} {code first second : Fragment}

/-- A layout has items. -/
theorem items_ne_nil (h : tree.fragment next = .ok code) : code.items.toList ≠ [] := by
  cases core_of_fragment h with
  | atom a =>
    rw [(fragment_leaf_ok a).1 h]
    simp [Fragment.single]
  | @binary op left right =>
    obtain ⟨_, _, -, -, rfl⟩ := (fragment_binary_ok op left right).1 h
    simp
  | @unary op operand =>
    obtain ⟨_, -, rfl⟩ := (fragment_unary_ok op operand).1 h
    simp
  | @lambda binder body =>
    obtain ⟨_, _, -, -, -, rfl⟩ := (fragment_lambda_ok binder body).1 h
    simp
  | @conditional condition thenTree elseTree =>
    obtain ⟨_, _, _, -, -, -, -, -, rfl⟩ :=
      (fragment_conditional_ok condition thenTree elseTree).1 h
    simp
  | @tau components =>
    obtain ⟨_, -, rfl⟩ := (fragment_tau_ok components).1 h
    simp
  | @gamma function argument =>
    obtain ⟨_, _, -, -, rfl⟩ := (fragment_gamma_ok function argument).1 h
    simp

theorem depthFirst_pair (hfirst : left.fragment next = .ok first)
    (h : DepthFirst next (first.items.toList.flatMap Item.targets) first.structures.toList)
    (h' : DepthFirst first.next (second.items.toList.flatMap Item.targets)
      second.structures.toList) :
    DepthFirst next ((first.append second).items.toList.flatMap Item.targets)
      (first.append second).structures.toList := by
  obtain ⟨hnext, hlength⟩ := fragment_next hfirst
  rw [hnext, ← hlength] at h'
  rw [Fragment.items_append, Fragment.structures_append, List.flatMap_append]
  exact h.append h'

theorem depthFirst_asStructures (htree : tree.fragment (next + 1) = .ok code)
    (h : DepthFirst (next + 1) (code.items.toList.flatMap Item.targets) code.structures.toList) :
    DepthFirst next [⟨next⟩] code.asStructures.toList := by
  have hcons := DepthFirst.cons (items_ne_nil htree) h (.nil _)
  rwa [List.append_nil, ← Fragment.toList_asStructures] at hcons

theorem depthFirst_of_fragmentAll {trees : List Tree}
    (ih : ∀ t ∈ trees, ∀ {next : Nat} {code : Fragment}, t.fragment next = .ok code →
      DepthFirst next (code.items.toList.flatMap Item.targets) code.structures.toList)
    (h : fragmentAll next trees = .ok code) :
    DepthFirst next (code.items.toList.flatMap Item.targets) code.structures.toList := by
  induction trees generalizing next code with
  | nil =>
    cases h
    exact .nil next
  | cons tree rest ihRest =>
    obtain ⟨first, others, hfirst, hothers, rfl⟩ := (fragmentAll_cons_ok tree rest).1 h
    exact depthFirst_pair hfirst (ih tree List.mem_cons_self hfirst)
      (ihRest (fun t ht => ih t (List.mem_cons_of_mem _ ht)) hothers)

/-- The structures of a layout are those that a walk reaches from the structures that its items
refer to. -/
theorem depthFirst_of_fragment (h : tree.fragment next = .ok code) :
    DepthFirst next (code.items.toList.flatMap Item.targets) code.structures.toList := by
  have hcore := core_of_fragment h
  induction hcore generalizing next code with
  | atom a =>
    obtain rfl := (fragment_leaf_ok a).1 h
    exact .nil next
  | @binary op left right _ _ ihLeft ihRight =>
    obtain ⟨leftCode, rightCode, hleft, hright, rfl⟩ := (fragment_binary_ok op left right).1 h
    rw [Fragment.items_cons]
    exact depthFirst_pair hleft (ihLeft hleft) (ihRight hright)
  | @unary op operand _ ih =>
    obtain ⟨operandCode, hoperand, rfl⟩ := (fragment_unary_ok op operand).1 h
    rw [Fragment.items_cons]
    exact ih hoperand
  | @lambda binder body params _ _ ih =>
    obtain ⟨_, bodyCode, -, -, hbody, rfl⟩ := (fragment_lambda_ok binder body).1 h
    exact depthFirst_asStructures hbody (ih hbody)
  | @conditional condition thenTree elseTree _ _ _ ihCondition ihThen ihElse =>
    obtain ⟨thenCode, elseCode, conditionCode, -, hthen, -, helse, hcondition, rfl⟩ :=
      (fragment_conditional_ok condition thenTree elseTree).1 h
    obtain ⟨hnext, -⟩ := fragment_next hthen
    obtain ⟨hnext', -⟩ := fragment_next helse
    have hthenNext : next + thenCode.asStructures.toList.length = thenCode.next := by
      rw [length_asStructures hthen]
      omega
    have helseNext : next + (thenCode.asStructures.toList ++ elseCode.asStructures.toList).length =
        elseCode.next := by
      rw [List.length_append, length_asStructures hthen, length_asStructures helse]
      omega
    -- The arms are numbered before the condition, as the items refer to them.
    have harms := (depthFirst_asStructures hthen (ihThen hthen)).append
      (by rw [hthenNext]; exact depthFirst_asStructures helse (ihElse helse))
    have hall := harms.append (by rw [helseNext]; exact ihCondition hcondition)
    rw [Fragment.structures_cons, Fragment.structures_cons, Fragment.structures_append,
      Chain.toList_join, Fragment.items_cons, Fragment.items_cons, Fragment.items_append]
    exact hall
  | @tau components _ ih =>
    obtain ⟨parts, hparts, rfl⟩ := (fragment_tau_ok components).1 h
    rw [Fragment.items_cons]
    exact depthFirst_of_fragmentAll (fun t ht => ih t ht) hparts
  | @gamma function argument _ _ ihFunction ihArgument =>
    obtain ⟨functionCode, argumentCode, hfunction, hargument, rfl⟩ :=
      (fragment_gamma_ok function argument).1 h
    rw [Fragment.items_cons]
    exact depthFirst_pair hfunction (ihFunction hfunction) (ihArgument hargument)

/-- The structures of a program are those that a walk reaches from the first. -/
theorem depthFirst_of_program (h : tree.fragment 1 = .ok code) :
    DepthFirst 0 [.entry] code.asStructures.toList :=
  depthFirst_asStructures h (depthFirst_of_fragment h)

end Tree

end EagerLambda
