import EagerLambda.Proofs.Control.Layout
import EagerLambda.Proofs.Tree.Alpha

/-!
# Control tables that bind different names

Core trees that are the same up to the names they bind have tables with the same structures, in
which items differ by names only. Each structure has a static scope, the names that are bound around
the tree it was made from.

## Main definitions

- `Control.ItemPaired` — two items are the same up to the names that are bound
- `Control.BodyPaired` — two tables have such items in a structure

## Main statements

- `Tree.Alpha.fragment` — the layouts of two trees
- `Tree.Alpha.ofTree` — the tables of two programs
-/

namespace EagerLambda

namespace Control

variable (naming : Naming) (table table' : Table)

mutual

/-- The items are the same up to the names that are bound, and so are the structures they refer
to. Around them the names in the pairing are bound. -/
inductive ItemPaired : Pairing → Item → Item → Prop
  | identifier {pairing : Pairing} {x y : Name} : pairing.Relates naming x y →
      ItemPaired pairing (.load (.identifier x)) (.load (.identifier y))
  | constant {pairing : Pairing} {a : Atom} : (∀ x, a ≠ .identifier x) →
      ItemPaired pairing (.load a) (.load a)
  | gamma {pairing : Pairing} : ItemPaired pairing .gamma .gamma
  | binary {pairing : Pairing} (op : BinaryOp) : ItemPaired pairing (.binary op) (.binary op)
  | unary {pairing : Pairing} (op : UnaryOp) : ItemPaired pairing (.unary op) (.unary op)
  | tau {pairing : Pairing} (count : Nat) : ItemPaired pairing (.tau count) (.tau count)
  | beta {pairing : Pairing} : ItemPaired pairing .beta .beta
  | lambda {pairing : Pairing} {body : ControlId} {xs ys : List Name} :
      List.Forall₂ naming.bound xs ys → BodyPaired (pairing.bind xs ys) body →
      ItemPaired pairing (.lambda body xs) (.lambda body ys)
  | branch {pairing : Pairing} {thenId elseId : ControlId} :
      BodyPaired pairing thenId → BodyPaired pairing elseId →
      ItemPaired pairing (.branch thenId elseId) (.branch thenId elseId)

/-- Both tables have a structure with this number, and the items in them are the same up to the
names that are bound. -/
inductive BodyPaired : Pairing → ControlId → Prop
  | intro {pairing : Pairing} {id : ControlId} {items items' : List Item} :
      table.get? id = some ⟨id, items⟩ → table'.get? id = some ⟨id, items'⟩ →
      items.length = items'.length →
      (∀ item item', (item, item') ∈ items.zip items' → ItemPaired pairing item item') →
      BodyPaired pairing id

end

variable {naming : Naming} {table table' : Table} {pairing : Pairing}

theorem BodyPaired.of_items {id : ControlId} {items items' : List Item}
    (hget : table.get? id = some ⟨id, items⟩) (hget' : table'.get? id = some ⟨id, items'⟩)
    (h : List.Forall₂ (ItemPaired naming table table' pairing) items items') :
    BodyPaired naming table table' pairing id :=
  .intro hget hget' h.length_eq fun _ _ hmem => (List.forall₂_iff_zip.1 h).2 hmem

theorem BodyPaired.exists_items {id : ControlId} (h : BodyPaired naming table table' pairing id) :
    ∃ items items', table.get? id = some ⟨id, items⟩ ∧ table'.get? id = some ⟨id, items'⟩ ∧
      List.Forall₂ (ItemPaired naming table table' pairing) items items' := by
  cases h with
  | intro hget hget' hlength hitems =>
    exact ⟨_, _, hget, hget', List.forall₂_iff_zip.2 ⟨hlength, fun hmem => hitems _ _ hmem⟩⟩

/-- The items of two layouts refer to the same structures, and so do those of the structures that
they add to a table. -/
structure Fragment.SameTargets (code code' : Fragment) : Prop where
  next : code'.next = code.next
  items : code'.items.toList.map Item.targets = code.items.toList.map Item.targets
  structures : code'.structures.toList.map (List.map Item.targets) =
    code.structures.toList.map (List.map Item.targets)

/-- The layouts start at the same number and are the same up to the names that are bound. -/
structure Fragment.Paired (naming : Naming) (pairing : Pairing) (start : Nat)
    (code code' : Fragment) : Prop extends SameTargets code code' where
  paired {table table' : Table} : table.HoldsFrom start code.structures.toList →
    table'.HoldsFrom start code'.structures.toList →
    List.Forall₂ (ItemPaired naming table table' pairing) code.items.toList code'.items.toList

namespace Fragment

variable {start : Nat} {code code' other other' : Fragment}

theorem SameTargets.length_eq (h : SameTargets code code') :
    code'.structures.toList.length = code.structures.toList.length := by
  simpa using congrArg List.length h.structures

theorem SameTargets.append (h : SameTargets code code') (h' : SameTargets other other') :
    SameTargets (code.append other) (code'.append other') := by
  refine ⟨h'.next, ?_, ?_⟩
  · rw [items_append, items_append, List.map_append, List.map_append, h.items, h'.items]
  · rw [structures_append, structures_append, List.map_append, List.map_append, h.structures,
      h'.structures]

theorem SameTargets.cons (h : SameTargets code code') (item : Item) :
    SameTargets (code.cons item) (code'.cons item) := by
  refine ⟨h.next, ?_, h.structures⟩
  rw [items_cons, items_cons, List.map_cons, List.map_cons, h.items]

theorem SameTargets.asStructures (h : SameTargets code code') :
    code'.asStructures.toList.map (List.map Item.targets) =
      code.asStructures.toList.map (List.map Item.targets) := by
  rw [toList_asStructures, toList_asStructures, List.map_cons, List.map_cons, h.items,
    h.structures]

/-- Two layouts after one another, the second numbered after the structures of the first. -/
theorem Paired.append (h : Paired naming pairing start code code')
    (hnext : code.next = start + code.structures.toList.length)
    (h' : Paired naming pairing code.next other other') :
    Paired naming pairing start (code.append other) (code'.append other') where
  toSameTargets := h.toSameTargets.append h'.toSameTargets
  paired := by
    intro table table' hholds hholds'
    rw [structures_append, Table.holdsFrom_append] at hholds hholds'
    rw [h.length_eq] at hholds'
    rw [hnext] at h'
    rw [items_append, items_append]
    exact List.rel_append (h.paired hholds.1 hholds'.1) (h'.paired hholds.2 hholds'.2)

theorem Paired.cons (h : Paired naming pairing start code code') {item : Item}
    (hitem : ∀ table table', table.HoldsFrom start code.structures.toList →
      table'.HoldsFrom start code'.structures.toList →
      ItemPaired naming table table' pairing item item) :
    Paired naming pairing start (code.cons item) (code'.cons item) where
  toSameTargets := h.toSameTargets.cons item
  paired := by
    intro table table' hholds hholds'
    rw [items_cons, items_cons]
    exact .cons (hitem table table' hholds hholds') (h.paired hholds hholds')

/-- The structure made from a function body or an arm. -/
theorem Paired.body (h : Paired naming pairing (start + 1) code code')
    (hholds : table.HoldsFrom start code.asStructures.toList)
    (hholds' : table'.HoldsFrom start code'.asStructures.toList) :
    BodyPaired naming table table' pairing ⟨start⟩ := by
  rw [toList_asStructures] at hholds hholds'
  exact .of_items hholds.1 hholds'.1 (h.paired hholds.2 hholds'.2)

/-- The structures of the two arms of a conditional, without items. -/
def arms (first second : Fragment) : Fragment :=
  ⟨.empty, first.asStructures.join second.asStructures, second.next⟩

theorem Paired.arms (h : Paired naming pairing (start + 1) code code')
    (h' : Paired naming pairing (code.next + 1) other other') :
    Paired naming pairing start (code.arms other) (code'.arms other') := by
  refine ⟨⟨h'.next, rfl, ?_⟩, fun _ _ => .nil⟩
  simp only [Fragment.arms, Chain.toList_join, List.map_append, h.asStructures, h'.asStructures]

/-- The structures made from the two arms of a conditional. -/
theorem Paired.armBodies (h : Paired naming pairing (start + 1) code code')
    (hnext : code.next = start + 1 + code.structures.toList.length)
    (h' : Paired naming pairing (code.next + 1) other other')
    (hholds : table.HoldsFrom start (code.arms other).structures.toList)
    (hholds' : table'.HoldsFrom start (code'.arms other').structures.toList) :
    BodyPaired naming table table' pairing ⟨start⟩ ∧
      BodyPaired naming table table' pairing ⟨code.next⟩ := by
  have hlength : start + code.asStructures.toList.length = code.next := by
    simp only [toList_asStructures, List.length_cons]
    omega
  have hlength' : start + code'.asStructures.toList.length = code.next := by
    simp only [toList_asStructures, List.length_cons, h.length_eq]
    omega
  simp only [Fragment.arms, Chain.toList_join, Table.holdsFrom_append, hlength, hlength']
    at hholds hholds'
  exact ⟨h.body hholds.1 hholds'.1, h'.body hholds.2 hholds'.2⟩

end Fragment

namespace Table

theorem structureFault?_eq {items items' : List Item}
    (h : items'.map Item.targets = items.map Item.targets) (count index : Nat) :
    structureFault? count items' index = structureFault? count items index := by
  have hempty : items'.isEmpty = items.isEmpty := by
    rw [← List.isEmpty_map (f := Item.targets), h, List.isEmpty_map]
  have htargets : items'.flatMap Item.targets = items.flatMap Item.targets := by
    rw [List.flatMap_def, h, ← List.flatMap_def]
  rw [structureFault?, structureFault?, hempty, htargets]

/-- A table is sound or not by what its items refer to. -/
theorem fault?_eq {sequences sequences' : List (List Item)}
    (h : sequences'.map (List.map Item.targets) = sequences.map (List.map Item.targets)) :
    fault? sequences' = fault? sequences := by
  have hlength : sequences'.length = sequences.length := by simpa using congrArg List.length h
  have hfind : ∀ count start,
      ((sequences'.zipIdx start).findSome? fun entry => structureFault? count entry.1 entry.2) =
        (sequences.zipIdx start).findSome? fun entry => structureFault? count entry.1 entry.2 := by
    intro count
    clear hlength
    induction sequences generalizing sequences' with
    | nil =>
      obtain rfl : sequences' = [] := by simpa using h
      exact fun _ => rfl
    | cons items rest ih =>
      intro start
      obtain ⟨items', rest', rfl, hitems, hrest⟩ := List.map_eq_cons_iff.1 h
      simp only [List.zipIdx_cons, List.findSome?_cons, structureFault?_eq hitems, ih hrest]
  rw [fault?, fault?, hlength]
  exact hfind _ 0

end Table

end Control

open Control

namespace Tree

variable {naming : Naming} {pairing : Pairing} {tree tree' : Tree}

/-- The first number that is free after a layout. -/
theorem fragment_next_eq {start : Nat} {code : Fragment} (h : tree.fragment start = .ok code) :
    code.next = start + code.structures.toList.length := by
  have hnext := fragment_next h
  omega

/-- The components of tuples are laid out alike. -/
theorem fragmentAll_paired {trees trees' : List Tree} (hlength : trees.length = trees'.length)
    (ih : ∀ t t', (t, t') ∈ trees.zip trees' → ∀ {start : Nat} {code : Fragment},
      t.fragment start = .ok code →
        ∃ code', t'.fragment start = .ok code' ∧ code.Paired naming pairing start code')
    {start : Nat} {code : Fragment} (h : fragmentAll start trees = .ok code) :
    ∃ code', fragmentAll start trees' = .ok code' ∧ code.Paired naming pairing start code' := by
  induction trees generalizing trees' start code with
  | nil =>
    obtain rfl : trees' = [] := List.length_eq_zero_iff.1 hlength.symm
    cases h
    exact ⟨_, rfl, ⟨rfl, rfl, rfl⟩, fun _ _ => .nil⟩
  | cons tree rest ihRest =>
    obtain ⟨tree', rest', rfl⟩ := List.exists_cons_of_length_eq_add_one hlength.symm
    obtain ⟨first, others, hfirst, hothers, rfl⟩ := (fragmentAll_cons_ok tree rest).1 h
    obtain ⟨first', hfirst', hpaired⟩ := ih tree tree' (by simp) hfirst
    obtain ⟨others', hothers', hpaired'⟩ := ihRest (by simpa using hlength)
      (fun t t' ht => ih t t' (by simp [ht])) hothers
    rw [← hpaired.next] at hothers'
    exact ⟨_, (fragmentAll_cons_ok tree' rest').2 ⟨_, _, hfirst', hothers', rfl⟩,
      hpaired.append (fragment_next_eq hfirst) hpaired'⟩

/-- Trees that are the same up to the names they bind have layouts that are. -/
theorem Alpha.fragment (h : Alpha naming pairing tree tree') {start : Nat} {code : Fragment}
    (hcode : tree.fragment start = .ok code) :
    ∃ code', tree'.fragment start = .ok code' ∧ code.Paired naming pairing start code' := by
  induction h generalizing start code with
  | identifier hxy =>
    rw [(fragment_leaf_ok _).1 hcode]
    exact ⟨_, (fragment_leaf_ok _).2 rfl, ⟨rfl, rfl, rfl⟩,
      fun _ _ => .cons (.identifier hxy) .nil⟩
  | constant ha =>
    rw [(fragment_leaf_ok _).1 hcode]
    exact ⟨_, (fragment_leaf_ok _).2 rfl, ⟨rfl, rfl, rfl⟩, fun _ _ => .cons (.constant ha) .nil⟩
  | @binary pairing op left right left' right' _ _ ihLeft ihRight =>
    obtain ⟨leftCode, rightCode, hleft, hright, rfl⟩ := (fragment_binary_ok op left right).1 hcode
    obtain ⟨leftCode', hleft', hpaired⟩ := ihLeft hleft
    obtain ⟨rightCode', hright', hpaired'⟩ := ihRight hright
    rw [← hpaired.next] at hright'
    exact ⟨_, (fragment_binary_ok op left' right').2 ⟨_, _, hleft', hright', rfl⟩,
      (hpaired.append (fragment_next_eq hleft) hpaired').cons fun _ _ _ _ => .binary op⟩
  | @unary pairing op operand operand' _ ih =>
    obtain ⟨operandCode, hoperand, rfl⟩ := (fragment_unary_ok op operand).1 hcode
    obtain ⟨operandCode', hoperand', hpaired⟩ := ih hoperand
    exact ⟨_, (fragment_unary_ok op operand').2 ⟨_, hoperand', rfl⟩,
      hpaired.cons fun _ _ _ _ => .unary op⟩
  | @lambda pairing binder body binder' body' xs ys hxs hys hbound _ ih =>
    obtain ⟨params, bodyCode, hparams, hlimit, hbody, rfl⟩ :=
      (fragment_lambda_ok binder body).1 hcode
    obtain rfl : xs = params := Except.ok.inj (hxs.symm.trans hparams)
    obtain ⟨bodyCode', hbody', hpaired⟩ := ih hbody
    refine ⟨_, (fragment_lambda_ok binder' body').2 ⟨ys, _, hys, hlimit, hbody', rfl⟩,
      ⟨hpaired.next, rfl, hpaired.asStructures⟩, fun hholds hholds' => ?_⟩
    exact .cons (.lambda hbound (hpaired.body hholds hholds')) .nil
  | @conditional pairing condition thenTree elseTree condition' thenTree' elseTree' _ _ _
      ihCondition ihThen ihElse =>
    obtain ⟨thenCode, elseCode, conditionCode, hlimit, hthen, hlimit', helse, hcondition, rfl⟩ :=
      (fragment_conditional_ok condition thenTree elseTree).1 hcode
    obtain ⟨thenCode', hthen', hpaired⟩ := ihThen hthen
    obtain ⟨elseCode', helse', hpaired'⟩ := ihElse helse
    obtain ⟨conditionCode', hcondition', hpaired''⟩ := ihCondition hcondition
    -- The layouts take the same numbers, so each part fits behind the renamed one before it.
    rw [← hpaired.next] at hlimit' helse'
    rw [← hpaired'.next] at hcondition'
    have hnext := fragment_next_eq hthen
    have harms := hpaired.arms hpaired'
    have hstart : (thenCode.arms elseCode).next =
        start + (thenCode.arms elseCode).structures.toList.length := by
      have hnext' := fragment_next_eq helse
      simp only [Fragment.arms, Chain.toList_join, Fragment.toList_asStructures,
        List.length_append, List.length_cons]
      omega
    refine ⟨_, (fragment_conditional_ok condition' thenTree' elseTree').2
      ⟨_, _, _, hlimit, hthen', hlimit', helse', hcondition', rfl⟩, ?_⟩
    rw [hpaired.next]
    refine ((harms.append hstart hpaired'').cons fun _ _ _ _ => .beta).cons
      fun table table' hholds hholds' => ?_
    rw [Fragment.structures_cons, Fragment.structures_append, Table.holdsFrom_append]
      at hholds hholds'
    obtain ⟨hbody, hbody'⟩ := hpaired.armBodies hnext hpaired' hholds.1 hholds'.1
    exact .branch hbody hbody'
  | @tau pairing components components' hlength _ ih =>
    obtain ⟨parts, hparts, rfl⟩ := (fragment_tau_ok components).1 hcode
    obtain ⟨parts', hparts', hpaired⟩ := fragmentAll_paired hlength ih hparts
    refine ⟨_, (fragment_tau_ok components').2 ⟨_, hparts', rfl⟩, ?_⟩
    rw [← hlength]
    exact hpaired.cons fun _ _ _ _ => .tau _
  | @gamma pairing function argument function' argument' _ _ ihFunction ihArgument =>
    obtain ⟨functionCode, argumentCode, hfunction, hargument, rfl⟩ :=
      (fragment_gamma_ok function argument).1 hcode
    obtain ⟨functionCode', hfunction', hpaired⟩ := ihFunction hfunction
    obtain ⟨argumentCode', hargument', hpaired'⟩ := ihArgument hargument
    rw [← hpaired.next] at hargument'
    exact ⟨_, (fragment_gamma_ok function' argument').2 ⟨_, _, hfunction', hargument', rfl⟩,
      (hpaired.append (fragment_next_eq hfunction) hpaired').cons fun _ _ _ _ => .gamma⟩

/-- If one of two programs that are the same up to the names they bind has a table, so has the
other, and the programs start in structures that are the same up to names. -/
theorem Alpha.ofTree {table : Table} (h : Alpha naming [] tree tree')
    (htable : Table.ofTree tree = .ok table) :
    ∃ table', Table.ofTree tree' = .ok table' ∧ table'.size = table.size ∧
      BodyPaired naming table table' [] .entry := by
  obtain ⟨code, hcode, rfl, hfault⟩ := Table.ofTree_eq_ok.1 htable
  obtain ⟨code', hcode', hpaired⟩ := h.fragment hcode
  have hfault' : Table.fault? code'.asStructures.toList = none := by
    rw [Table.fault?_eq hpaired.asStructures, hfault]
  refine ⟨_, Table.ofTree_eq_ok.2 ⟨code', hcode', rfl, hfault'⟩, ?_, ?_⟩
  · have hlength := congrArg List.length hpaired.asStructures
    simpa [Table.size, Table.ofItems] using hlength
  · exact hpaired.body (Table.holdsFrom_ofItems _) (Table.holdsFrom_ofItems _)

end Tree

end EagerLambda
