import EagerLambda.Proofs.Control.Completeness
import Mathlib.Data.List.Nodup
import Mathlib.Logic.Relation

/-!
# The tree of structures

The structures of a program form a tree: each but the first is the body of one function or an arm of
one conditional. As they are numbered in the order of a walk, a structure and all that are reached
from it have numbers that follow one another.

## Main definitions

- `Control.Table.references` — what all items of a table refer to
- `Control.Table.Reaches` — the references lead from one structure to another
- `Control.Table.Arborescent` — the references of a table form a tree, numbered depth first
- `Tree.labels` — the labels in a tree
- `Control.Fragment.Lists` — a fragment contains an item

## Main statements

- `Control.DepthFirst.reached_iff`, `Control.DepthFirst.exists_block` — what a walk reaches
- `Tree.structuresOf_labels` — how many structures a tree adds
- `Tree.exists_binder_of_lists` — functions are made by the items for functions
- `Control.Table.ofTree_arborescent` — the table of a program is a tree, numbered depth first
-/

namespace EagerLambda

open Control

-- ════════════════════════════════════════════════════════════════════════
-- The graph of references
-- ════════════════════════════════════════════════════════════════════════

namespace Control

/-- The structures that the items of a structure refer to. -/
def Structure.targets (cs : Structure) : List ControlId := cs.items.flatMap Item.targets

namespace Table

/-- What all items of a table refer to. A structure that is referred to twice is listed twice. -/
def references (table : Table) : List ControlId := table.structures.toList.flatMap Structure.targets

/-- An item of the first structure refers to the second. -/
def RefersTo (table : Table) (source target : ControlId) : Prop :=
  ∃ cs, table.get? source = some cs ∧ target ∈ cs.targets

/-- The references lead from the first structure to the second, in any number of steps. -/
def Reaches (table : Table) : ControlId → ControlId → Prop :=
  Relation.ReflTransGen table.RefersTo

/-- The references of the table form a tree, and its structures are numbered in the order of a
depth-first walk. -/
structure Arborescent (table : Table) : Prop where
  /-- A structure stands at the position that is its number, and it is not empty. -/
  structure_at : ∀ (index : Nat) (cs : Structure), table.structures[index]? = some cs →
    cs.id = ⟨index⟩ ∧ cs.items ≠ []
  /-- Every structure but that of the program is referred to, by one item and there once. -/
  count_references : ∀ id, table.references.count id =
    if 0 < id.index ∧ id.index < table.size then 1 else 0
  /-- What a structure refers to has a greater number. -/
  lt_of_refersTo : ∀ source target, table.RefersTo source target → source.index < target.index
  /-- Every structure is reached from that of the program. -/
  reaches_entry : ∀ id, table.Reaches .entry id ↔ id.index < table.size
  /-- The structures that are reached from one of them are it and some that follow it. -/
  block : ∀ source : ControlId, source.index < table.size → ∃ stop ≤ table.size,
    ∀ id, table.Reaches source id ↔ source.index ≤ id.index ∧ id.index < stop

/-- The structures that the references lead to from `start` are those after it and before `stop`. -/
structure Block (table : Table) (start stop : Nat) : Prop where
  lt : start < stop
  transGen_iff : ∀ id, Relation.TransGen table.RefersTo ⟨start⟩ id ↔
    start < id.index ∧ id.index < stop

variable {table : Table} {start stop : Nat}

theorem Block.reaches_iff (h : table.Block start stop) (id : ControlId) :
    table.Reaches ⟨start⟩ id ↔ start ≤ id.index ∧ id.index < stop := by
  have hlt := h.lt
  have hid : id = ⟨start⟩ ↔ id.index = start :=
    ⟨fun h => by rw [h], fun h => by rw [← h]⟩
  rw [Reaches, Relation.reflTransGen_iff_eq_or_transGen, h.transGen_iff, hid]
  omega

/-- Whatever the items of a structure lead to follows the structure if it is a block. -/
theorem block_of_reached {items : List Item} (hget : table.get? ⟨start⟩ = some ⟨⟨start⟩, items⟩)
    (hlt : start < stop)
    (h : ∀ id, (∃ target ∈ items.flatMap Item.targets, table.Reaches target id) ↔
      start + 1 ≤ id.index ∧ id.index < stop) : table.Block start stop := by
  refine ⟨hlt, fun id => ?_⟩
  have hrefers : ∀ target, table.RefersTo ⟨start⟩ target ↔ target ∈ items.flatMap Item.targets := by
    intro target
    simp only [RefersTo, hget, Option.some.injEq, exists_eq_left', Structure.targets]
  rw [Relation.TransGen.head'_iff]
  simp only [hrefers]
  exact h id

end Table

-- ════════════════════════════════════════════════════════════════════════
-- Blocks of a walk
-- ════════════════════════════════════════════════════════════════════════

namespace DepthFirst

variable {next : Nat} {roots : List ControlId} {sequences : List (List Item)}
  {table : Table}

/-- In a table that holds the sequences, the walk reaches them and nothing else. -/
theorem reached_iff (h : DepthFirst next roots sequences)
    (holds : table.HoldsFrom next sequences) : ∀ id, (∃ root ∈ roots, table.Reaches root id) ↔
      next ≤ id.index ∧ id.index < next + sequences.length := by
  induction h with
  | nil next =>
    intro id
    simp only [List.not_mem_nil, false_and, exists_false, List.length_nil, false_iff]
    omega
  | @cons next items roots below rest _ _ _ ihBelow ihRest =>
    intro id
    obtain ⟨hget, hholds⟩ := holds
    obtain ⟨holdsBelow, holdsRest⟩ := Table.holdsFrom_append.1 hholds
    have hblock : table.Block next (next + 1 + below.length) :=
      Table.block_of_reached hget (by omega) (ihBelow holdsBelow)
    rw [List.exists_mem_cons_iff, hblock.reaches_iff, ihRest holdsRest, next_add_length]
    omega

/-- In a table that holds the sequences, each of them is the first of a block. -/
theorem exists_block (h : DepthFirst next roots sequences) (holds : table.HoldsFrom next sequences)
    {start : Nat} (hnext : next ≤ start) (hstart : start < next + sequences.length) :
    ∃ stop ≤ next + sequences.length, table.Block start stop := by
  induction h with
  | nil next => exact absurd hstart (Nat.not_lt_of_le hnext)
  | @cons next items roots below rest _ hbelow _ ihBelow ihRest =>
    obtain ⟨hget, hholds⟩ := holds
    obtain ⟨holdsBelow, holdsRest⟩ := Table.holdsFrom_append.1 hholds
    rw [next_add_length] at hstart ⊢
    rcases Nat.eq_or_lt_of_le hnext with rfl | hnext
    · exact ⟨_, Nat.le_add_right _ _,
        Table.block_of_reached hget (by omega) (hbelow.reached_iff holdsBelow)⟩
    · rcases Nat.lt_or_ge start (next + 1 + below.length) with hbefore | hafter
      · obtain ⟨stop, hle, hblock⟩ := ihBelow holdsBelow hnext hbefore
        exact ⟨stop, Nat.le_trans hle (Nat.le_add_right _ _), hblock⟩
      · exact ihRest holdsRest hafter hstart

end DepthFirst

end Control

-- ════════════════════════════════════════════════════════════════════════
-- How many structures there are
-- ════════════════════════════════════════════════════════════════════════

namespace Tree

variable {tree : Tree}

mutual

/-- The labels of all nodes of a tree. -/
def labels : Tree → List Label
  | node label children => label :: labelsAll children

/-- The labels of all nodes of the trees of a list. -/
def labelsAll : List Tree → List Label
  | [] => []
  | tree :: rest => tree.labels ++ labelsAll rest

end

/-- How many structures the nodes with these labels add to a table: a function adds one and a
conditional two. -/
def structuresOf (labels : List Label) : Nat :=
  labels.count (.construct .lambda) + 2 * labels.count (.construct .conditional)

theorem structuresOf_append (labels labels' : List Label) :
    structuresOf (labels ++ labels') = structuresOf labels + structuresOf labels' := by
  simp only [structuresOf, List.count_append]
  omega

theorem structuresOf_node (label : Label) (children : List Tree) :
    structuresOf (node label children).labels =
      structuresOf [label] + structuresOf (labelsAll children) :=
  structuresOf_append [label] (labelsAll children)

theorem structuresOf_labelsAll {trees : List Tree}
    (ih : ∀ t ∈ trees, structuresOf t.labels = t.structureCount) :
    structuresOf (labelsAll trees) = structureCountAll trees := by
  induction trees with
  | nil => rfl
  | cons tree rest ihRest =>
    rw [labelsAll, structuresOf_append, structureCountAll, ih tree List.mem_cons_self,
      ihRest fun t ht => ih t (List.mem_cons_of_mem _ ht)]

theorem structuresOf_identifiers (names : List Name) :
    structuresOf (labelsAll (names.map identifier)) = 0 := by
  induction names with
  | nil => rfl
  | cons x xs ih => rw [List.map_cons, labelsAll, structuresOf_append, ih]; rfl

/-- What binds names adds no structures. -/
theorem structuresOf_binder {binder : Tree} {names : List Name}
    (h : binder.boundNames = .ok names) : structuresOf binder.labels = 0 := by
  unfold boundNames at h
  split at h
  · next first rest =>
    rw [structuresOf_node, parameterNames_eq_ok.1 h, structuresOf_identifiers]
    rfl
  · split at h
    · cases h
    · next x hx =>
      rw [name?_eq_some.1 hx]
      rfl

/-- Functions add one structure each and conditionals two. -/
theorem structuresOf_labels (hcore : tree.Core) :
    structuresOf tree.labels = tree.structureCount := by
  induction hcore with
  | atom a => rfl
  | binary op _ _ ihLeft ihRight =>
    rw [structuresOf_node, structuresOf_labelsAll (by simp [ihLeft, ihRight])]
    exact Nat.zero_add _
  | unary op _ ih =>
    rw [structuresOf_node, structuresOf_labelsAll (by simp [ih])]
    exact Nat.zero_add _
  | @lambda binder body params hparams _ ih =>
    have hlambda : structuresOf [.construct .lambda] = 1 := rfl
    have hnil : structuresOf [] = 0 := rfl
    rw [lambda, of, structuresOf_node, structureCount]
    simp only [labelsAll, structuresOf_append, structuresOf_binder hparams, hlambda, hnil, ih]
    omega
  | @conditional condition thenTree elseTree _ _ _ ihCondition ihThen ihElse =>
    have hconditional : structuresOf [.construct .conditional] = 2 := rfl
    have hnil : structuresOf [] = 0 := rfl
    rw [of, structuresOf_node, structureCount]
    simp only [labelsAll, structuresOf_append, hconditional, hnil, ihCondition, ihThen, ihElse]
    omega
  | tau _ ih =>
    rw [of, structuresOf_node, structuresOf_labelsAll ih]
    exact Nat.zero_add _
  | gamma _ _ ihFunction ihArgument =>
    rw [apply, of, structuresOf_node, structuresOf_labelsAll (by simp [ihFunction, ihArgument])]
    exact Nat.zero_add _

end Tree

-- ════════════════════════════════════════════════════════════════════════
-- Where functions are made
-- ════════════════════════════════════════════════════════════════════════

namespace Control.Fragment

variable {first second code : Fragment} {item item' : Item}

/-- The item is one for the tree itself or one of a structure that the tree adds. -/
def Lists (code : Fragment) (item : Item) : Prop :=
  item ∈ code.items.toList ∨ ∃ items ∈ code.structures.toList, item ∈ items

theorem lists_append :
    (first.append second).Lists item ↔ first.Lists item ∨ second.Lists item := by
  simp only [Lists, items_append, structures_append, List.mem_append, or_and_right, exists_or]
  exact or_or_or_comm

theorem lists_cons : (code.cons item').Lists item ↔ item = item' ∨ code.Lists item := by
  simp only [Lists, items_cons, structures_cons, List.mem_cons, or_assoc]

theorem mem_asStructures :
    (∃ items ∈ code.asStructures.toList, item ∈ items) ↔ code.Lists item := by
  rw [toList_asStructures, List.exists_mem_cons_iff, Lists]

end Control.Fragment

namespace Tree

variable {tree : Tree} {next : Nat} {code : Fragment} {body : ControlId} {params : List Name}

theorem mem_labelsAll {trees : List Tree} {label : Label} :
    label ∈ labelsAll trees ↔ ∃ t ∈ trees, label ∈ t.labels := by
  induction trees with
  | nil => simp [labelsAll]
  | cons tree rest ih => rw [labelsAll, List.mem_append, ih, List.exists_mem_cons_iff]

/-- A label beneath a node is one of a child. -/
theorem mem_labels_of_child {label found : Label} {child : Tree} {children : List Tree}
    (hchild : child ∈ children) (h : found ∈ child.labels) :
    found ∈ (node label children).labels :=
  List.mem_cons_of_mem label (mem_labelsAll.2 ⟨child, hchild, h⟩)

theorem exists_of_fragmentAll_lists {trees : List Tree} {item : Item}
    (hcode : fragmentAll next trees = .ok code) (h : code.Lists item) :
    ∃ t ∈ trees, ∃ next code, t.fragment next = .ok code ∧ code.Lists item := by
  induction trees generalizing next code with
  | nil =>
    cases hcode
    rcases h with h | ⟨items, hitems, -⟩
    · cases h
    · cases hitems
  | cons tree rest ih =>
    obtain ⟨first, others, hfirst, hothers, rfl⟩ := (fragmentAll_cons_ok tree rest).1 hcode
    rcases Fragment.lists_append.1 h with h | h
    · exact ⟨tree, List.mem_cons_self, _, _, hfirst, h⟩
    · obtain ⟨t, ht, hlists⟩ := ih hothers h
      exact ⟨t, List.mem_cons_of_mem tree ht, hlists⟩

/-- Only for the functions of a tree there are items that make functions, and these bind the names
of a binder. -/
theorem exists_binder_of_lists (hcode : tree.fragment next = .ok code)
    (h : code.Lists (.lambda body params)) :
    .construct .lambda ∈ tree.labels ∧ ∃ binder : Tree, binder.boundNames = .ok params := by
  induction core_of_fragment hcode generalizing next code with
  | atom a =>
    rw [fragment_leaf_ok] at hcode
    subst hcode
    rcases h with h | ⟨items, hitems, -⟩
    · cases List.mem_singleton.1 h
    · cases hitems
  | @binary op left right _ _ ihLeft ihRight =>
    obtain ⟨leftCode, rightCode, hleft, hright, rfl⟩ := (fragment_binary_ok op left right).1 hcode
    rcases Fragment.lists_cons.1 h with heq | h
    · cases heq
    · rcases Fragment.lists_append.1 h with h | h
      · exact (ihLeft hleft h).imp_left (mem_labels_of_child List.mem_cons_self)
      · exact (ihRight hright h).imp_left
          (mem_labels_of_child (List.mem_cons_of_mem _ List.mem_cons_self))
  | @unary op operand _ ih =>
    obtain ⟨operandCode, hoperand, rfl⟩ := (fragment_unary_ok op operand).1 hcode
    rcases Fragment.lists_cons.1 h with heq | h
    · cases heq
    · exact (ih hoperand h).imp_left (mem_labels_of_child List.mem_cons_self)
  | @lambda binder bodyTree _ _ _ ih =>
    obtain ⟨names, bodyCode, hnames, -, hbody, rfl⟩ := (fragment_lambda_ok binder bodyTree).1 hcode
    refine ⟨List.mem_cons_self, ?_⟩
    rcases h with h | h
    · cases List.mem_singleton.1 h
      exact ⟨binder, hnames⟩
    · exact (ih hbody (Fragment.mem_asStructures.1 h)).2
  | @conditional condition thenTree elseTree _ _ _ ihCondition ihThen ihElse =>
    obtain ⟨thenCode, elseCode, conditionCode, -, hthen, -, helse, hcondition, rfl⟩ :=
      (fragment_conditional_ok condition thenTree elseTree).1 hcode
    rw [Fragment.lists_cons, Fragment.lists_cons, Fragment.lists_append] at h
    rcases h with heq | heq | (h | ⟨items, hitems, hitem⟩) | h
    · cases heq
    · cases heq
    · cases h
    · rw [Chain.toList_join] at hitems
      rcases List.mem_append.1 hitems with hitems | hitems
      · exact (ihThen hthen (Fragment.mem_asStructures.1 ⟨items, hitems, hitem⟩)).imp_left
          (mem_labels_of_child (by simp))
      · exact (ihElse helse (Fragment.mem_asStructures.1 ⟨items, hitems, hitem⟩)).imp_left
          (mem_labels_of_child (by simp))
    · exact (ihCondition hcondition h).imp_left (mem_labels_of_child List.mem_cons_self)
  | @tau components _ ih =>
    obtain ⟨parts, hparts, rfl⟩ := (fragment_tau_ok components).1 hcode
    rcases Fragment.lists_cons.1 h with heq | h
    · cases heq
    · obtain ⟨t, ht, _, _, hcode, h⟩ := exists_of_fragmentAll_lists hparts h
      exact (ih t ht hcode h).imp_left (mem_labels_of_child ht)
  | @gamma function argument _ _ ihFunction ihArgument =>
    obtain ⟨functionCode, argumentCode, hfunction, hargument, rfl⟩ :=
      (fragment_gamma_ok function argument).1 hcode
    rcases Fragment.lists_cons.1 h with heq | h
    · cases heq
    · rcases Fragment.lists_append.1 h with h | h
      · exact (ihFunction hfunction h).imp_left (mem_labels_of_child List.mem_cons_self)
      · exact (ihArgument hargument h).imp_left
          (mem_labels_of_child (List.mem_cons_of_mem _ List.mem_cons_self))

end Tree

namespace Control.Table

theorem references_ofItems (sequences : List (List Item)) :
    (ofItems sequences).references = sequences.flatMap (List.flatMap Item.targets) := by
  conv_rhs => rw [← map_items_ofItems sequences, List.flatMap_map]
  rfl

variable {sequences : List (List Item)}

/-- Every number is referred to once, but that of the structure where the walk starts. -/
theorem count_references_ofItems (h : DepthFirst 0 [.entry] sequences) (id : ControlId) :
    (ofItems sequences).references.count id =
      if 0 < id.index ∧ id.index < sequences.length then 1 else 0 := by
  have hnodup : ((List.range' 0 sequences.length).map ControlId.mk).Nodup :=
    List.Nodup.map (fun _ _ heq => ControlId.mk.inj heq) List.nodup_range'
  have hmem : id ∈ (List.range' 0 sequences.length).map ControlId.mk ↔
      id.index < sequences.length := by
    rw [DepthFirst.mem_range', Nat.zero_add]
    exact and_iff_right (Nat.zero_le _)
  have hcount := h.perm.count_eq id
  rw [← references_ofItems, List.cons_append, List.nil_append, List.count_cons, hnodup.count,
    if_congr hmem rfl rfl] at hcount
  have hlength : 0 < sequences.length := by
    cases h
    exact Nat.succ_pos _
  obtain ⟨index⟩ := id
  cases index with
  | zero =>
    have hentry : (ControlId.entry == ⟨0⟩) = true := rfl
    rw [hentry, if_pos rfl, if_pos hlength] at hcount
    rw [if_neg (by simp)]
    exact Nat.succ.inj hcount
  | succ index =>
    have hentry : (ControlId.entry == ⟨index + 1⟩) = false := rfl
    rw [hentry, if_neg Bool.false_ne_true, Nat.add_zero] at hcount
    simpa only [Nat.zero_lt_succ, true_and] using hcount

theorem exists_block_ofItems (h : DepthFirst 0 [.entry] sequences) {start : Nat}
    (hstart : start < sequences.length) :
    ∃ stop ≤ sequences.length, (ofItems sequences).Block start stop := by
  have hblock := h.exists_block (holdsFrom_ofItems sequences) (Nat.zero_le start)
  rw [Nat.zero_add] at hblock
  exact hblock hstart

/-- Structures in the order of a walk from the first form a tree. -/
theorem arborescent_ofItems (h : DepthFirst 0 [.entry] sequences) :
    (ofItems sequences).Arborescent where
  structure_at index cs hcs := by
    have hget := get?_ofItems sequences ⟨index⟩
    rw [get?, hcs] at hget
    obtain ⟨items, hitems, rfl⟩ := Option.map_eq_some_iff.1 hget.symm
    exact ⟨rfl, h.ne_nil items (List.mem_of_getElem? hitems)⟩
  count_references id := by
    rw [size_ofItems]
    exact count_references_ofItems h id
  lt_of_refersTo source target hrefers := by
    have hsource : source.index < sequences.length := by
      obtain ⟨cs, hcs, -⟩ := hrefers
      rw [get?_ofItems] at hcs
      obtain ⟨items, hitems, -⟩ := Option.map_eq_some_iff.1 hcs
      exact (List.getElem?_eq_some_iff.1 hitems).1
    obtain ⟨stop, -, hblock⟩ := exists_block_ofItems h hsource
    exact ((hblock.transGen_iff target).1 (.single hrefers)).1
  reaches_entry id := by
    have hreached := h.reached_iff (holdsFrom_ofItems sequences) id
    simpa [size_ofItems] using hreached
  block source hsource := by
    rw [size_ofItems] at hsource ⊢
    obtain ⟨stop, hle, hblock⟩ := exists_block_ofItems h hsource
    exact ⟨stop, hle, hblock.reaches_iff⟩

/-- **The structures of a program form a tree that is numbered depth first.** There is one for the
program, one for each function and two for each conditional. Neither check of the table of a program
ever fails: if the program has a layout, it has a table. -/
theorem ofTree_arborescent :
    (∀ tree code, tree.fragment 1 = .ok code → fault? code.asStructures.toList = none ∧
      ofTree tree = .ok (ofItems code.asStructures.toList)) ∧
    ∀ tree table, ofTree tree = .ok table → table.Arborescent ∧
      table.size = 1 + tree.labels.count (.construct .lambda) +
        2 * tree.labels.count (.construct .conditional) := by
  constructor
  · intro tree code hcode
    exact ⟨fault?_eq_none (Tree.depthFirst_of_program hcode), Tree.ofTree_of_fragment hcode⟩
  · intro tree table h
    have hsize := Tree.size_of_ofTree h
    obtain ⟨code, hcode, rfl, -⟩ := ofTree_eq_ok.1 h
    have hcount := Tree.structuresOf_labels (Tree.core_of_fragment hcode)
    refine ⟨arborescent_ofItems (Tree.depthFirst_of_program hcode), ?_⟩
    rw [Tree.structuresOf] at hcount
    omega

/-- A conditional with a function that chooses in one arm and two functions in the other. -/
def choiceOfFunctions : Tree :=
  let x : Tree := .identifier ⟨17⟩
  .of .conditional [.leaf (.truth true),
    .lambda x (.of .conditional [x, .leaf (.integer 1), .leaf (.integer 2)]),
    .apply (.lambda x x) (.lambda x x)]

theorem choiceOfFunctions_arborescent :
    ∃ code table, choiceOfFunctions.fragment 1 = .ok code ∧
      fault? code.asStructures.toList = none ∧ ofTree choiceOfFunctions = .ok table ∧
      table.Arborescent ∧ table.size = 1 + 3 + 2 * 2 ∧
      table.references.map ControlId.index = [1, 5, 2, 3, 4, 6, 7] := by
  obtain ⟨hlayout, htree⟩ := ofTree_arborescent
  have hcode : choiceOfFunctions.fragment 1 = .ok _ := rfl
  obtain ⟨hfault, htable⟩ := hlayout _ _ hcode
  obtain ⟨harborescent, hsize⟩ := htree _ _ htable
  exact ⟨_, _, hcode, hfault, htable, harborescent, hsize, rfl⟩

end Control.Table

end EagerLambda
