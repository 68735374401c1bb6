import EagerLambda.Proofs.Control.Layout

/-!
# Reading a tree back from its control table

The layout of a tree loses almost nothing. An item tells how many trees follow it in its structure
and which structures hold the others, so the tree can be read back from its table. Only how a
function binds a single name is lost: a list of one name comes back as the name.

## Main definitions

- `Control.Table.decode?` — the tree that a table stands for
- `Tree.plain` — the tree without lists of a single bound name

## Main statements

- `Tree.readable_of_core` — the items of a layout are read as the tree that was laid out
- `Control.Table.ofTree_faithful` — a table is read as the tree that it was made from, and tells
  trees apart that differ in more than lists of a single name
-/

namespace EagerLambda

open Control

-- ════════════════════════════════════════════════════════════════════════
-- The decoder
-- ════════════════════════════════════════════════════════════════════════

/-- What binds these names: the name alone if there is one, a list of the names otherwise. -/
def Tree.binderOf : List Name → Tree
  | [x] => identifier x
  | names => of .comma (names.map identifier)

namespace Control

/-- The label of the node that an item was made from and how many trees follow the item, if all
children of the node are laid out after it. -/
def Item.node? : Item → Option (Label × Nat)
  | load a => some (.atom a, 0)
  | gamma => some (.construct .gamma, 2)
  | binary op => some (.binary op, 2)
  | unary op => some (.unary op, 1)
  | tau count => some (.construct .tau, count)
  | lambda .. => none
  | branch .. => none
  | beta => none

/-- Reads trees one after the other, and answers the items that are left. -/
def readAll (read : List Item → Option (Tree × List Item)) :
    (count : Nat) → List Item → Option (List Tree × List Item)
  | 0, items => some ([], items)
  | count + 1, items => do
    let (first, items) ← read items
    let (others, items) ← readAll read count items
    some (first :: others, items)

namespace Table

/-- Reads the items of a structure, all of which belong to one tree. -/
def readStructure (table : Table) (read : List Item → Option (Tree × List Item))
    (id : ControlId) : Option Tree := do
  let found ← table.get? id
  let (tree, rest) ← read found.items
  if rest.isEmpty then some tree else none

/-- Reads the tree that a sequence of items begins with, and answers the items that are left. A
tree of more than `height` levels is not read. -/
def read (table : Table) : (height : Nat) → List Item → Option (Tree × List Item)
  | 0, _ => none
  | _ + 1, [] => none
  | height + 1, .lambda body params :: items => do
    let tree ← table.readStructure (table.read height) body
    some (.lambda (.binderOf params) tree, items)
  | height + 1, .branch thenId elseId :: .beta :: items => do
    let thenTree ← table.readStructure (table.read height) thenId
    let elseTree ← table.readStructure (table.read height) elseId
    let (condition, items) ← table.read height items
    some (.of .conditional [condition, thenTree, elseTree], items)
  | height + 1, item :: items => do
    let (label, count) ← item.node?
    let (children, items) ← readAll (table.read height) count items
    some (.node label children, items)

/-- How many items the structures of a table have together. -/
def itemCount (table : Table) : Nat := (table.structures.toList.flatMap Structure.items).length

/-- The tree that a table stands for. On a way down from the root every node has an item of its
own, so the tree has no more levels than there are items. -/
def decode? (table : Table) : Option Tree :=
  table.readStructure (table.read table.itemCount) .entry

end Table

end Control

-- ════════════════════════════════════════════════════════════════════════
-- Lists of a single name
-- ════════════════════════════════════════════════════════════════════════

namespace Tree

/-- What binds names, where a list of a single name is replaced by the name. -/
def plainBinder : Tree → Tree
  | node (.construct .comma) [node (.atom (.identifier x)) []] => identifier x
  | binder => binder

mutual

/-- The tree in which no function binds a list of a single name, but the name itself. -/
def plain : Tree → Tree
  | node (.construct .lambda) [binder, body] => lambda binder.plainBinder body.plain
  | node label children => node label (plainAll children)

/-- The trees of a list in which no function binds a list of a single name. -/
def plainAll : List Tree → List Tree
  | [] => []
  | tree :: rest => tree.plain :: plainAll rest

end

/-- What binds names is replaced by what is read back for these names, and binds the same. -/
theorem plainBinder_of_boundNames {binder : Tree} {names : List Name}
    (h : binder.boundNames = .ok names) :
    binder.plainBinder = binderOf names ∧ binder.plainBinder.boundNames = .ok names := by
  unfold boundNames at h
  split at h
  · next first rest =>
    -- A list of names: it is plain unless there is a single one.
    have htrees := parameterNames_eq_ok.1 h
    obtain ⟨x, xs, rfl, rfl, rfl⟩ := List.map_eq_cons_iff.1 htrees.symm
    cases xs with
    | nil => exact ⟨rfl, rfl⟩
    | cons y ys => exact ⟨rfl, h⟩
  · split at h
    · cases h
    · next x hx =>
      cases h
      rw [name?_eq_some.1 hx]
      exact ⟨rfl, rfl⟩

end Tree

-- ════════════════════════════════════════════════════════════════════════
-- Reading a layout
-- ════════════════════════════════════════════════════════════════════════

namespace Control

/-- How many items a layout has, together with the structures that it adds. -/
def Fragment.weight (code : Fragment) : Nat :=
  code.items.toList.length + code.structures.toList.flatten.length

namespace Fragment

@[simp]
theorem weight_cons (item : Item) (code : Fragment) :
    (code.cons item).weight = code.weight + 1 := by
  simp only [weight, items_cons, structures_cons, List.length_cons]
  omega

@[simp]
theorem weight_append (first second : Fragment) :
    (first.append second).weight = first.weight + second.weight := by
  simp only [weight, items_append, structures_append, List.flatten_append, List.length_append]
  omega

theorem length_flatten_asStructures (code : Fragment) :
    code.asStructures.toList.flatten.length = code.weight := by
  rw [toList_asStructures, List.flatten_cons, List.length_append, weight]

end Fragment

namespace Table

variable {table : Table} {height : Nat}

theorem itemCount_ofItems (sequences : List (List Item)) :
    (ofItems sequences).itemCount = sequences.flatten.length := by
  rw [itemCount, List.flatMap_def, map_items_ofItems]

theorem read_node {item : Item} {label : Label} {count : Nat} (h : item.node? = some (label, count))
    {items : List Item} {children : List Tree} {rest : List Item}
    (hread : readAll (table.read height) count items = some (children, rest)) :
    table.read (height + 1) (item :: items) = some (.node label children, rest) := by
  cases item with
  | lambda body params => cases h
  | branch thenId elseId => cases h
  | beta => cases h
  | _ =>
    cases h
    simp only [read, Item.node?, Option.bind_eq_bind, Option.bind_some]
    rw [hread]
    rfl

theorem readStructure_eq {read : List Item → Option (Tree × List Item)} {id : ControlId}
    {items : List Item} {tree : Tree} (hget : table.get? id = some ⟨id, items⟩)
    (hread : read items = some (tree, [])) : table.readStructure read id = some tree := by
  rw [readStructure, hget, Option.bind_eq_bind, Option.bind_some, hread]
  rfl

end Table

end Control

namespace Tree

variable {table : Table} {tree : Tree} {next height : Nat} {code : Fragment}

/-- A table that holds the structures of a layout lets the layout be read back. -/
def Readable (table : Table) (tree : Tree) : Prop :=
  ∀ {next height : Nat} {code : Fragment}, tree.fragment next = .ok code →
    table.HoldsFrom next code.structures.toList → code.weight ≤ height → ∀ rest,
      table.read height (code.items.toList ++ rest) = some (tree.plain, rest)

theorem readAll_of_fragmentAll {trees : List Tree} (ih : ∀ t ∈ trees, Readable table t)
    (h : fragmentAll next trees = .ok code) (holds : table.HoldsFrom next code.structures.toList)
    (hheight : code.weight ≤ height) (rest : List Item) :
    readAll (table.read height) trees.length (code.items.toList ++ rest) =
      some (plainAll trees, rest) := by
  induction trees generalizing next code with
  | nil =>
    cases h
    rfl
  | cons tree trees ihTrees =>
    obtain ⟨first, others, hfirst, hothers, rfl⟩ := (fragmentAll_cons_ok tree trees).1 h
    rw [holdsFrom_pair hfirst] at holds
    rw [Fragment.weight_append] at hheight
    have hread := ih tree List.mem_cons_self hfirst holds.1 (by omega : first.weight ≤ height)
      (others.items.toList ++ rest)
    have hreadAll := ihTrees (fun t ht => ih t (List.mem_cons_of_mem _ ht)) hothers holds.2
      (by omega)
    simp only [readAll, List.length_cons, Fragment.items_append, List.append_assoc, hread, hreadAll,
      Option.bind_eq_bind, Option.bind_some, plainAll]

/-- A tree that becomes a structure of its own is read from the structure. -/
theorem Readable.structure (htree : Readable table tree) (h : tree.fragment (next + 1) = .ok code)
    (holds : table.HoldsFrom next code.asStructures.toList) (hheight : code.weight ≤ height) :
    table.readStructure (table.read height) ⟨next⟩ = some tree.plain := by
  rw [Fragment.toList_asStructures] at holds
  have hread := htree h holds.2 hheight []
  rw [List.append_nil] at hread
  exact Table.readStructure_eq holds.1 hread

theorem readAll_pair {left right : Tree} {leftCode rightCode : Fragment}
    (ihLeft : Readable table left) (ihRight : Readable table right)
    (hleft : left.fragment next = .ok leftCode)
    (hright : right.fragment leftCode.next = .ok rightCode)
    (holds : table.HoldsFrom next (leftCode.append rightCode).structures.toList)
    (hheight : (leftCode.append rightCode).weight ≤ height) (rest : List Item) :
    readAll (table.read height) 2 ((leftCode.append rightCode).items.toList ++ rest) =
      some ([left.plain, right.plain], rest) := by
  rw [holdsFrom_pair hleft] at holds
  rw [Fragment.weight_append] at hheight
  have hreadLeft := ihLeft hleft holds.1 (by omega : leftCode.weight ≤ height)
    (rightCode.items.toList ++ rest)
  have hreadRight := ihRight hright holds.2 (by omega : rightCode.weight ≤ height) rest
  simp only [readAll, Fragment.items_append, List.append_assoc, hreadLeft, hreadRight,
    Option.bind_eq_bind, Option.bind_some]

/-- An item is read together with the trees that follow it. -/
theorem read_cons {item : Item} {label : Label} {count : Nat} {parts : Fragment}
    {children : List Tree} (hnode : item.node? = some (label, count))
    (hparts : ∀ {height : Nat}, parts.weight ≤ height → ∀ rest,
      readAll (table.read height) count (parts.items.toList ++ rest) = some (children, rest))
    (hheight : (parts.cons item).weight ≤ height) (rest : List Item) :
    table.read height ((parts.cons item).items.toList ++ rest) =
      some (.node label children, rest) := by
  rw [Fragment.weight_cons] at hheight
  obtain ⟨lower, rfl⟩ := Nat.exists_eq_add_of_le' (Nat.le_of_add_left_le hheight)
  rw [Fragment.items_cons]
  exact Table.read_node hnode (hparts (Nat.le_of_succ_le_succ hheight) rest)

/-- The items of a layout are read as the tree that was laid out. -/
theorem readable_of_core (hcore : tree.Core) : Readable table tree := by
  induction hcore with
  | atom a =>
    intro next height code hcode _ hheight rest
    obtain rfl := (fragment_leaf_ok a).1 hcode
    obtain ⟨lower, rfl⟩ := Nat.exists_eq_add_of_le' hheight
    exact Table.read_node rfl rfl
  | @binary op left right _ _ ihLeft ihRight =>
    intro next height code hcode holds hheight rest
    obtain ⟨leftCode, rightCode, hleft, hright, rfl⟩ := (fragment_binary_ok op left right).1 hcode
    exact read_cons rfl (readAll_pair ihLeft ihRight hleft hright holds) hheight rest
  | @unary op operand _ ih =>
    intro next height code hcode holds hheight rest
    obtain ⟨operandCode, hoperand, rfl⟩ := (fragment_unary_ok op operand).1 hcode
    refine read_cons rfl (fun hheight rest => ?_) hheight rest
    simp only [readAll, ih hoperand holds hheight rest, Option.bind_eq_bind, Option.bind_some]
    rfl
  | @lambda binder body params hparams _ ih =>
    intro next height code hcode holds hheight rest
    obtain ⟨_, bodyCode, hnames, -, hbody, rfl⟩ := (fragment_lambda_ok binder body).1 hcode
    cases hparams.symm.trans hnames
    have hweight : bodyCode.weight + 1 ≤ height := by
      rw [Fragment.weight, Fragment.length_flatten_asStructures] at hheight
      exact Nat.le_trans (Nat.le_of_eq (Nat.add_comm _ _)) hheight
    obtain ⟨lower, rfl⟩ := Nat.exists_eq_add_of_le' (Nat.le_of_add_left_le hweight)
    have hstructure := ih.structure hbody holds (Nat.le_of_succ_le_succ hweight)
    show table.read (lower + 1) (.lambda ⟨next⟩ params :: rest) = _
    simp only [Table.read, hstructure, Option.bind_eq_bind, Option.bind_some]
    rw [← (plainBinder_of_boundNames hparams).1]
    rfl
  | @conditional condition thenTree elseTree _ _ _ ihCondition ihThen ihElse =>
    intro next height code hcode holds hheight rest
    obtain ⟨thenCode, elseCode, conditionCode, -, hthen, -, helse, hcondition, rfl⟩ :=
      (fragment_conditional_ok condition thenTree elseTree).1 hcode
    rw [Fragment.structures_cons, Fragment.structures_cons, holdsFrom_conditional hthen helse]
      at holds
    obtain ⟨holdsThen, holdsElse, holdsCondition⟩ := holds
    have hweight : thenCode.weight + elseCode.weight + conditionCode.weight + 2 ≤ height := by
      have harms : Fragment.weight ⟨.empty, thenCode.asStructures.join elseCode.asStructures,
          elseCode.next⟩ = thenCode.weight + elseCode.weight := by
        simp only [Fragment.weight, Chain.toList_empty, Chain.toList_join, List.flatten_append,
          Fragment.length_flatten_asStructures, List.length_append, List.length_nil, Nat.zero_add]
      rwa [Fragment.weight_cons, Fragment.weight_cons, Fragment.weight_append, harms] at hheight
    obtain ⟨lower, rfl⟩ := Nat.exists_eq_add_of_le' (Nat.le_of_add_left_le hweight)
    have hreadThen := ihThen.structure hthen holdsThen (by omega : thenCode.weight ≤ lower + 1)
    have hreadElse := ihElse.structure helse holdsElse (by omega : elseCode.weight ≤ lower + 1)
    have hreadCondition := ihCondition hcondition holdsCondition
      (by omega : conditionCode.weight ≤ lower + 1) rest
    rw [Fragment.items_cons, Fragment.items_cons, Fragment.items_append]
    show table.read (lower + 2)
      (.branch ⟨next⟩ ⟨thenCode.next⟩ :: .beta :: (conditionCode.items.toList ++ rest)) = _
    simp only [Table.read, hreadThen, hreadElse, hreadCondition, Option.bind_eq_bind,
      Option.bind_some]
    rfl
  | @tau components _ ih =>
    intro next height code hcode holds hheight rest
    obtain ⟨parts, hparts, rfl⟩ := (fragment_tau_ok components).1 hcode
    exact read_cons rfl (readAll_of_fragmentAll ih hparts holds) hheight rest
  | @gamma function argument _ _ ihFunction ihArgument =>
    intro next height code hcode holds hheight rest
    obtain ⟨functionCode, argumentCode, hfunction, hargument, rfl⟩ :=
      (fragment_gamma_ok function argument).1 hcode
    exact read_cons rfl (readAll_pair ihFunction ihArgument hfunction hargument holds) hheight rest

-- ════════════════════════════════════════════════════════════════════════
-- What a layout loses
-- ════════════════════════════════════════════════════════════════════════

theorem fragmentAll_plain {trees : List Tree}
    (ih : ∀ t ∈ trees, ∀ {next : Nat} {code : Fragment}, t.fragment next = .ok code →
      t.plain.fragment next = .ok code)
    (h : fragmentAll next trees = .ok code) : fragmentAll next (plainAll trees) = .ok code := by
  induction trees generalizing next code with
  | nil => exact h
  | cons tree trees ihTrees =>
    obtain ⟨first, others, hfirst, hothers, rfl⟩ := (fragmentAll_cons_ok tree trees).1 h
    refine (fragmentAll_cons_ok tree.plain (plainAll trees)).2 ⟨first, others, ?_, ?_, rfl⟩
    · exact ih tree List.mem_cons_self hfirst
    · exact ihTrees (fun t ht => ih t (List.mem_cons_of_mem _ ht)) hothers

theorem length_plainAll (trees : List Tree) : (plainAll trees).length = trees.length := by
  induction trees with
  | nil => rfl
  | cons tree trees ih => rw [plainAll, List.length_cons, List.length_cons, ih]

/-- A list of a single name does not matter to the layout. -/
theorem fragment_plain (h : tree.fragment next = .ok code) :
    tree.plain.fragment next = .ok code := by
  have hcore := core_of_fragment h
  induction hcore generalizing next code with
  | atom a => exact h
  | @binary op left right _ _ ihLeft ihRight =>
    obtain ⟨leftCode, rightCode, hleft, hright, rfl⟩ := (fragment_binary_ok op left right).1 h
    exact (fragment_binary_ok op left.plain right.plain).2
      ⟨leftCode, rightCode, ihLeft hleft, ihRight hright, rfl⟩
  | @unary op operand _ ih =>
    obtain ⟨operandCode, hoperand, rfl⟩ := (fragment_unary_ok op operand).1 h
    exact (fragment_unary_ok op operand.plain).2 ⟨operandCode, ih hoperand, rfl⟩
  | @lambda binder body params _ _ ih =>
    obtain ⟨names, bodyCode, hnames, hlimit, hbody, rfl⟩ := (fragment_lambda_ok binder body).1 h
    exact (fragment_lambda_ok binder.plainBinder body.plain).2
      ⟨names, bodyCode, (plainBinder_of_boundNames hnames).2, hlimit, ih hbody, rfl⟩
  | @conditional condition thenTree elseTree _ _ _ ihCondition ihThen ihElse =>
    obtain ⟨thenCode, elseCode, conditionCode, hlimit, hthen, hlimit', helse, hcondition, rfl⟩ :=
      (fragment_conditional_ok condition thenTree elseTree).1 h
    exact (fragment_conditional_ok condition.plain thenTree.plain elseTree.plain).2
      ⟨thenCode, elseCode, conditionCode, hlimit, ihThen hthen, hlimit', ihElse helse,
        ihCondition hcondition, rfl⟩
  | @tau components _ ih =>
    obtain ⟨parts, hparts, rfl⟩ := (fragment_tau_ok components).1 h
    rw [← length_plainAll components]
    exact (fragment_tau_ok (plainAll components)).2
      ⟨parts, fragmentAll_plain (fun t ht => ih t ht) hparts, rfl⟩
  | @gamma function argument _ _ ihFunction ihArgument =>
    obtain ⟨functionCode, argumentCode, hfunction, hargument, rfl⟩ :=
      (fragment_gamma_ok function argument).1 h
    exact (fragment_gamma_ok function.plain argument.plain).2
      ⟨functionCode, argumentCode, ihFunction hfunction, ihArgument hargument, rfl⟩

theorem ofTree_plain (h : Table.ofTree tree = .ok table) :
    Table.ofTree tree.plain = .ok table := by
  obtain ⟨code, hcode, htable, hfault⟩ := Table.ofTree_eq_ok.1 h
  exact Table.ofTree_eq_ok.2 ⟨code, fragment_plain hcode, htable, hfault⟩

end Tree

namespace Control.Table

variable {tree : Tree} {table : Table}

/-- The table of a program is read as the program, but for lists of a single name. -/
theorem decode?_eq_plain (h : ofTree tree = .ok table) : table.decode? = some tree.plain := by
  obtain ⟨code, hcode, rfl, -⟩ := ofTree_eq_ok.1 h
  have hweight : (ofItems code.asStructures.toList).itemCount = code.weight := by
    rw [itemCount_ofItems, Fragment.length_flatten_asStructures]
  exact Tree.Readable.structure (Tree.readable_of_core (Tree.core_of_fragment hcode)) hcode
    (holdsFrom_ofItems _) (Nat.le_of_eq hweight.symm)

/-- **The layout loses nothing but lists of a single name.** The table of a program can be read
back as the program, in which functions that bind a list of one name bind the name. So two programs
have the same table if and only if they differ in this only. -/
theorem ofTree_faithful :
    (∀ tree table, ofTree tree = .ok table → table.decode? = some tree.plain) ∧
      ∀ tree tree' table table', ofTree tree = .ok table → ofTree tree' = .ok table' →
        (table = table' ↔ tree.plain = tree'.plain) := by
  refine ⟨fun tree table h => decode?_eq_plain h, fun tree tree' table table' h h' => ?_⟩
  constructor
  · rintro rfl
    exact Option.some.inj ((decode?_eq_plain h).symm.trans (decode?_eq_plain h'))
  · intro hplain
    have htable := Tree.ofTree_plain h
    rw [hplain, Tree.ofTree_plain h'] at htable
    exact (Except.ok.inj htable).symm

/-- A function of a list of one name that chooses between a pair of names and a constant. -/
def listedChoice : Tree :=
  let x : Tree := .identifier ⟨17⟩
  let y : Tree := .identifier ⟨18⟩
  .lambda (.of .comma [x]) (.of .conditional [.apply x y, .lambda (.of .comma [x, y])
    (.of .tau [y, x]), .node (.unary .neg) [.leaf (.integer 1)]])

theorem listedChoice_decoded : ∃ table, ofTree listedChoice = .ok table ∧
    table.decode? = some listedChoice.plain ∧ listedChoice.plain ≠ listedChoice ∧
    ∃ table', ofTree listedChoice.plain = .ok table' ∧ table = table' := by
  obtain ⟨hdecode, hsame⟩ := ofTree_faithful
  have htable : ofTree listedChoice = .ok _ := rfl
  have htable' : ofTree listedChoice.plain = .ok _ := rfl
  exact ⟨_, htable, hdecode _ _ htable, by decide, _, htable', (hsame _ _ _ _ htable htable').2 rfl⟩

end Control.Table

end EagerLambda
