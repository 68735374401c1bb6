import EagerLambda.Proofs.Control.Walk

/-!
# Core trees can be laid out

A core tree has a layout as long as there are numbers for its structures. Nothing is wrong with the
table that is made from the layout, so the tree has a control table.

## Main statements

- `Tree.exists_fragment` — a core tree has a layout
- `Tree.ofTree_of_fragment` — a program that has a layout has a control table
- `Tree.exists_table` — a core tree has a control table
- `Tree.size_of_ofTree` — how many structures the table has
-/

namespace EagerLambda

open Control

namespace Control

/-- Nothing is wrong with a table whose structures are in the order of a walk: no structure is
empty, and every number that is referred to belongs to a structure. -/
theorem Table.fault?_eq_none {roots : List ControlId} {sequences : List (List Item)}
    (h : DepthFirst 0 roots sequences) : fault? sequences = none := by
  rw [fault?, List.findSome?_eq_none_iff]
  rintro ⟨items, index⟩ hmem
  have hitems : items ∈ sequences := List.fst_mem_of_mem_zipIdx hmem
  have hfind : (items.flatMap Item.targets).find?
      (fun id => decide (sequences.length ≤ id.index)) = none := by
    rw [List.find?_eq_none]
    intro id hid
    simpa using h.target_lt hitems hid
  show structureFault? sequences.length items index = none
  rw [structureFault?, if_neg (by simpa using h.ne_nil items hitems), hfind, Option.map_none]

end Control

namespace Tree

variable {tree : Tree} {next : Nat} {code : Fragment}

-- ════════════════════════════════════════════════════════════════════════
-- There is a layout
-- ════════════════════════════════════════════════════════════════════════

theorem exists_fragmentAll {trees : List Tree}
    (ih : ∀ t ∈ trees, ∀ {next : Nat}, next + t.structureCount ≤ handleLimit →
      ∃ code, t.fragment next = .ok code)
    (hfits : next + structureCountAll trees ≤ handleLimit) :
    ∃ code, fragmentAll next trees = .ok code := by
  induction trees generalizing next with
  | nil => exact ⟨.empty next, rfl⟩
  | cons tree rest ihRest =>
    rw [structureCountAll] at hfits
    have hroom : next + tree.structureCount ≤ handleLimit := by omega
    obtain ⟨first, hfirst⟩ := ih tree (by simp) hroom
    obtain ⟨hnext, -⟩ := fragment_next hfirst
    obtain ⟨others, hothers⟩ := ihRest (fun t ht => ih t (by simp [ht]))
      (by omega : first.next + structureCountAll rest ≤ handleLimit)
    exact ⟨_, (fragmentAll_cons_ok tree rest).2 ⟨first, others, hfirst, hothers, rfl⟩⟩

/-- A core tree has a layout if there are numbers for its structures. -/
theorem exists_fragment (hcore : tree.Core) (hfits : next + tree.structureCount ≤ handleLimit) :
    ∃ code, tree.fragment next = .ok code := by
  induction hcore generalizing next with
  | atom a => exact ⟨_, (fragment_leaf_ok a).2 rfl⟩
  | @binary op left right _ _ ihLeft ihRight =>
    have hcount : (node (.binary op) [left, right]).structureCount =
        left.structureCount + (right.structureCount + 0) := rfl
    rw [hcount] at hfits
    obtain ⟨leftCode, hleft⟩ := ihLeft (by omega : next + left.structureCount ≤ handleLimit)
    obtain ⟨hnext, -⟩ := fragment_next hleft
    obtain ⟨rightCode, hright⟩ :=
      ihRight (by omega : leftCode.next + right.structureCount ≤ handleLimit)
    exact ⟨_, (fragment_binary_ok op left right).2 ⟨leftCode, rightCode, hleft, hright, rfl⟩⟩
  | @unary op operand _ ih =>
    obtain ⟨operandCode, hoperand⟩ := ih (by simpa [structureCount, structureCountAll] using hfits)
    exact ⟨_, (fragment_unary_ok op operand).2 ⟨operandCode, hoperand, rfl⟩⟩
  | @lambda binder body params hparams _ ih =>
    have hcount : (lambda binder body).structureCount = body.structureCount + 1 := rfl
    rw [hcount] at hfits
    obtain ⟨bodyCode, hbody⟩ := ih (by omega : next + 1 + body.structureCount ≤ handleLimit)
    exact ⟨_, (fragment_lambda_ok binder body).2
      ⟨params, bodyCode, hparams, by omega, hbody, rfl⟩⟩
  | @conditional condition thenTree elseTree _ _ _ ihCondition ihThen ihElse =>
    have hcount : (of .conditional [condition, thenTree, elseTree]).structureCount =
        (thenTree.structureCount + 1) + (elseTree.structureCount + 1) +
          condition.structureCount := rfl
    rw [hcount] at hfits
    obtain ⟨thenCode, hthen⟩ := ihThen (by omega : next + 1 + thenTree.structureCount ≤ handleLimit)
    obtain ⟨hnext, -⟩ := fragment_next hthen
    obtain ⟨elseCode, helse⟩ :=
      ihElse (by omega : thenCode.next + 1 + elseTree.structureCount ≤ handleLimit)
    obtain ⟨hnext', -⟩ := fragment_next helse
    obtain ⟨conditionCode, hcondition⟩ :=
      ihCondition (by omega : elseCode.next + condition.structureCount ≤ handleLimit)
    exact ⟨_, (fragment_conditional_ok condition thenTree elseTree).2 ⟨thenCode, elseCode,
      conditionCode, by omega, hthen, by omega, helse, hcondition, rfl⟩⟩
  | @tau components _ ih =>
    obtain ⟨parts, hparts⟩ := exists_fragmentAll (fun t ht => ih t ht) hfits
    exact ⟨_, (fragment_tau_ok components).2 ⟨parts, hparts, rfl⟩⟩
  | @gamma function argument _ _ ihFunction ihArgument =>
    have hcount : (apply function argument).structureCount =
        function.structureCount + (argument.structureCount + 0) := rfl
    rw [hcount] at hfits
    obtain ⟨functionCode, hfunction⟩ :=
      ihFunction (by omega : next + function.structureCount ≤ handleLimit)
    obtain ⟨hnext, -⟩ := fragment_next hfunction
    obtain ⟨argumentCode, hargument⟩ :=
      ihArgument (by omega : functionCode.next + argument.structureCount ≤ handleLimit)
    exact ⟨_, (fragment_gamma_ok function argument).2
      ⟨functionCode, argumentCode, hfunction, hargument, rfl⟩⟩

-- ════════════════════════════════════════════════════════════════════════
-- Nothing is wrong with it
-- ════════════════════════════════════════════════════════════════════════

/-- A program that has a layout has a control table. -/
theorem ofTree_of_fragment (h : tree.fragment 1 = .ok code) :
    Table.ofTree tree = .ok (Table.ofItems code.asStructures.toList) :=
  Table.ofTree_eq_ok.2 ⟨code, h, rfl, Table.fault?_eq_none (depthFirst_of_program h)⟩

/-- A core tree has a control table if there are numbers for its structures. -/
theorem exists_table (hcore : tree.Core) (hfits : tree.structureCount + 1 ≤ handleLimit) :
    ∃ table, Table.ofTree tree = .ok table := by
  obtain ⟨code, hcode⟩ := exists_fragment hcore (by omega : 1 + tree.structureCount ≤ handleLimit)
  exact ⟨_, ofTree_of_fragment hcode⟩

/-- The table of a program has a structure for the program and one for each function body and each
arm of a conditional. -/
theorem size_of_ofTree {table : Table} (h : Table.ofTree tree = .ok table) :
    table.size = tree.structureCount + 1 := by
  obtain ⟨code, hcode, rfl, -⟩ := Table.ofTree_eq_ok.1 h
  rw [Table.size_ofItems, length_asStructures hcode]

end Tree

end EagerLambda
