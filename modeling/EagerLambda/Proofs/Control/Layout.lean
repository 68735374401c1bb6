import EagerLambda.Proofs.Tree.Core
import EagerLambda.Proofs.Tree.Site

/-!
# Where the parts of a tree are laid out

A control table holds the code of every subtree of its program: the items of a subtree stand in
one structure, and the body of a function or an arm of a conditional is a structure of its own.
The number of that structure can be read off the place of the body in the tree.

## Main definitions

- `Tree.structureCount` — how many structures a tree adds to the table
- `Tree.bodyId` — the number of the structure made from a function body, an arm or the program
- `Control.Table.HoldsFrom` — a table holds sequences of items from a number on
- `Tree.Placed` — a layout of a subtree that fits its place
- `Tree.LaidOut` — a table holds the code of a tree

## Main statements

- `Tree.laidOut_of_fragment` — the layout of a tree lays out every subtree
- `Tree.laidOut_of_ofTree` — the table of a program holds the code of the program
-/

namespace EagerLambda

open Control

namespace Control.Fragment

@[simp]
theorem items_cons (item : Item) (code : Fragment) :
    (code.cons item).items.toList = item :: code.items.toList := by
  simp [cons]

@[simp]
theorem items_append (first second : Fragment) :
    (first.append second).items.toList = first.items.toList ++ second.items.toList := by
  simp [append]

@[simp]
theorem structures_cons (item : Item) (code : Fragment) :
    (code.cons item).structures = code.structures := rfl

@[simp]
theorem structures_append (first second : Fragment) :
    (first.append second).structures.toList =
      first.structures.toList ++ second.structures.toList := by
  simp [append]

@[simp]
theorem toList_asStructures (code : Fragment) :
    code.asStructures.toList = code.items.toList :: code.structures.toList := by
  simp [asStructures]

@[simp]
theorem next_cons (item : Item) (code : Fragment) : (code.cons item).next = code.next := rfl

@[simp]
theorem next_append (first second : Fragment) : (first.append second).next = second.next := rfl

end Control.Fragment

namespace Tree

mutual

/-- How many structures the layout of a core tree adds: one for each function body and each arm of
a conditional. -/
def structureCount : Tree → Nat
  | node (.construct .lambda) [_, body] => body.structureCount + 1
  | node (.construct .conditional) [condition, thenTree, elseTree] =>
    (thenTree.structureCount + 1) + (elseTree.structureCount + 1) + condition.structureCount
  | node _ children => structureCountAll children

/-- How many structures the trees of a list add together. -/
def structureCountAll : List Tree → Nat
  | [] => 0
  | tree :: rest => tree.structureCount + structureCountAll rest

end

/-- How many numbers are taken between the first that is free when the walk reaches a node and the
first that is free when it reaches the child at `index`. -/
def offset (tree : Tree) (index : Nat) : Nat :=
  match tree, index with
  | node (.construct .lambda) [_, _], 1 => 1
  | node (.construct .conditional) [_, thenTree, elseTree], 0 =>
    (thenTree.structureCount + 1) + (elseTree.structureCount + 1)
  | node (.construct .conditional) [_, _, _], 1 => 1
  | node (.construct .conditional) [_, thenTree, _], 2 => (thenTree.structureCount + 1) + 1
  | node _ children, index => structureCountAll (children.take index)

/-- The first free number when the walk reaches a place. The program itself is structure 0. -/
def numberAt (root : Tree) : Site → Nat
  | [] => 1
  | index :: outer =>
    root.numberAt outer + ((root.at? outer).map fun tree => tree.offset index).getD 0

/-- The number of the structure made from the function body, the arm or the program at a place: the
last number that is taken before the walk reaches it. -/
def bodyId (root : Tree) (site : Site) : ControlId := ⟨root.numberAt site - 1⟩

variable {root tree : Tree} {site : Site}

theorem numberAt_cons (h : root.at? site = some tree) (index : Nat) :
    root.numberAt (index :: site) = root.numberAt site + tree.offset index := by
  rw [numberAt, h, Option.map_some, Option.getD_some]

theorem fragmentAll_next {trees : List Tree} {next : Nat} {code : Fragment}
    (ih : ∀ t ∈ trees, ∀ {next : Nat} {code : Fragment}, t.fragment next = .ok code →
      code.next = next + t.structureCount ∧ code.structures.toList.length = t.structureCount)
    (h : fragmentAll next trees = .ok code) :
    code.next = next + structureCountAll trees ∧
      code.structures.toList.length = structureCountAll trees := by
  induction trees generalizing next code with
  | nil =>
    cases h
    exact ⟨rfl, rfl⟩
  | cons tree rest ihRest =>
    obtain ⟨first, others, hfirst, hothers, rfl⟩ := (fragmentAll_cons_ok tree rest).1 h
    obtain ⟨hnext, hlen⟩ := ih tree (by simp) hfirst
    obtain ⟨hnext', hlen'⟩ := ihRest (fun t ht => ih t (by simp [ht])) hothers
    simp only [Fragment.next_append, Fragment.structures_append, structureCountAll,
      List.length_append]
    omega

/-- The walk leaves a tree with as many numbers taken as the tree adds structures. -/
theorem fragment_next {next : Nat} {code : Fragment} (h : tree.fragment next = .ok code) :
    code.next = next + tree.structureCount ∧
      code.structures.toList.length = tree.structureCount := by
  have hcore := core_of_fragment h
  induction hcore generalizing next code with
  | atom a =>
    rw [(fragment_leaf_ok a).1 h]
    exact ⟨rfl, rfl⟩
  | @binary op left right _ _ ihLeft ihRight =>
    obtain ⟨leftCode, rightCode, hleft, hright, rfl⟩ := (fragment_binary_ok op left right).1 h
    obtain ⟨hnext, hlen⟩ := ihLeft hleft
    obtain ⟨hnext', hlen'⟩ := ihRight hright
    simp only [Fragment.next_cons, Fragment.next_append, Fragment.structures_cons,
      Fragment.structures_append, structureCount, structureCountAll, List.length_append]
    omega
  | @unary op operand _ ih =>
    obtain ⟨operandCode, hoperand, rfl⟩ := (fragment_unary_ok op operand).1 h
    obtain ⟨hnext, hlen⟩ := ih hoperand
    exact ⟨hnext, hlen⟩
  | @lambda binder body params _ _ ih =>
    obtain ⟨_, bodyCode, -, -, hbody, rfl⟩ := (fragment_lambda_ok binder body).1 h
    obtain ⟨hnext, hlen⟩ := ih hbody
    simp only [Fragment.toList_asStructures, lambda, of, structureCount, List.length_cons]
    omega
  | @conditional condition thenTree elseTree _ _ _ ihCondition ihThen ihElse =>
    obtain ⟨thenCode, elseCode, conditionCode, -, hthen, -, helse, hcondition, rfl⟩ :=
      (fragment_conditional_ok condition thenTree elseTree).1 h
    obtain ⟨hnext, hlen⟩ := ihThen hthen
    obtain ⟨hnext', hlen'⟩ := ihElse helse
    obtain ⟨hnext'', hlen''⟩ := ihCondition hcondition
    simp only [Fragment.next_cons, Fragment.next_append, Fragment.structures_cons,
      Fragment.structures_append, Fragment.toList_asStructures, Chain.toList_join, of,
      structureCount, List.length_append, List.length_cons]
    omega
  | @tau components _ ih =>
    obtain ⟨parts, hparts, rfl⟩ := (fragment_tau_ok components).1 h
    obtain ⟨hnext, hlen⟩ := fragmentAll_next (fun t ht => ih t ht) hparts
    exact ⟨hnext, hlen⟩
  | @gamma function argument _ _ ihFunction ihArgument =>
    obtain ⟨leftCode, rightCode, hleft, hright, rfl⟩ := (fragment_gamma_ok function argument).1 h
    obtain ⟨hnext, hlen⟩ := ihFunction hleft
    obtain ⟨hnext', hlen'⟩ := ihArgument hright
    simp only [Fragment.next_cons, Fragment.next_append, Fragment.structures_cons,
      Fragment.structures_append, apply, of, structureCount, structureCountAll, List.length_append]
    omega

/-- How many structures a tree adds if it becomes a structure of its own, which comes first. -/
theorem length_asStructures {next : Nat} {code : Fragment} (h : tree.fragment next = .ok code) :
    code.asStructures.toList.length = tree.structureCount + 1 := by
  rw [Fragment.toList_asStructures, List.length_cons, (fragment_next h).2]

end Tree

/-- The table holds these sequences of items in the structures that are numbered from `next` on. -/
def Control.Table.HoldsFrom (table : Table) (next : Nat) : List (List Item) → Prop
  | [] => True
  | items :: rest => table.get? ⟨next⟩ = some ⟨⟨next⟩, items⟩ ∧ table.HoldsFrom (next + 1) rest

namespace Control.Table

@[simp]
theorem holdsFrom_append {table : Table} {next : Nat} {first second : List (List Item)} :
    table.HoldsFrom next (first ++ second) ↔
      table.HoldsFrom next first ∧ table.HoldsFrom (next + first.length) second := by
  induction first generalizing next with
  | nil => simp [HoldsFrom]
  | cons items rest ih =>
    have hlen : next + 1 + rest.length = next + (rest.length + 1) := by omega
    simp [HoldsFrom, ih, and_assoc, hlen]

/-- The structures of a table made from sequences of items. -/
theorem get?_ofItems (sequences : List (List Item)) (id : ControlId) :
    (ofItems sequences).get? id = sequences[id.index]?.map fun items => ⟨id, items⟩ := by
  simp [get?, ofItems, Function.comp_def]

theorem map_items_ofItems (sequences : List (List Item)) :
    (ofItems sequences).structures.toList.map Structure.items = sequences := by
  rw [ofItems, List.toList_toArray, List.map_map]
  exact List.zipIdx_map_fst 0 sequences

theorem size_ofItems (sequences : List (List Item)) :
    (ofItems sequences).size = sequences.length := by
  simp [size, ofItems]

theorem holdsFrom_of_getElem? {table : Table} {next : Nat} {sequences : List (List Item)}
    (h : ∀ i items, sequences[i]? = some items →
      table.get? ⟨next + i⟩ = some ⟨⟨next + i⟩, items⟩) :
    table.HoldsFrom next sequences := by
  induction sequences generalizing next with
  | nil => trivial
  | cons items rest ih =>
    refine ⟨h 0 items rfl, ih fun i items' hi => ?_⟩
    have := h (i + 1) items' (by simpa using hi)
    rwa [show next + 1 + i = next + (i + 1) by omega]

/-- A table holds the sequences of items that it was made from. -/
theorem holdsFrom_ofItems (sequences : List (List Item)) :
    (ofItems sequences).HoldsFrom 0 sequences :=
  holdsFrom_of_getElem? fun i items hi => by
    rw [Nat.zero_add, get?_ofItems, hi, Option.map_some]

/-- The table of a core tree is made from the layout of the tree, if nothing is wrong with it. -/
theorem ofTree_eq_ok {tree : Tree} {table : Table} :
    ofTree tree = .ok table ↔ ∃ code, tree.fragment 1 = .ok code ∧
      table = ofItems code.asStructures.toList ∧ fault? code.asStructures.toList = none := by
  have hentry : allocate 0 = .ok ⟨0⟩ := Tree.allocate_eq_ok.2 ⟨by decide, rfl⟩
  rw [ofTree, hentry]
  constructor
  · intro h
    obtain ⟨_, -, h⟩ := bind_eq_ok.1 h
    obtain ⟨code, hcode, h⟩ := bind_eq_ok.1 h
    rw [ofItems?] at h
    split at h
    case h_1 fault hfault => cases h
    case h_2 hfault =>
      cases h
      exact ⟨code, hcode, rfl, hfault⟩
  · rintro ⟨code, hcode, rfl, hfault⟩
    refine bind_eq_ok.2 ⟨_, rfl, bind_eq_ok.2 ⟨code, hcode, ?_⟩⟩
    rw [ofItems?, hfault]

end Control.Table

namespace Tree

section Holds

variable {tree thenTree elseTree : Tree} {table : Table} {next : Nat}

/-- The structures of two trees that are laid out one after the other. -/
theorem holdsFrom_pair {first second : Fragment} (h : tree.fragment next = .ok first) :
    table.HoldsFrom next (first.append second).structures.toList ↔
      table.HoldsFrom next first.structures.toList ∧
        table.HoldsFrom first.next second.structures.toList := by
  obtain ⟨hnext, hlength⟩ := fragment_next h
  rw [Fragment.structures_append, Table.holdsFrom_append, hlength, ← hnext]

/-- The structures of a conditional: the walk numbers the arms first and the condition after
them. -/
theorem holdsFrom_conditional {thenCode elseCode conditionCode : Fragment}
    (hthen : thenTree.fragment (next + 1) = .ok thenCode)
    (helse : elseTree.fragment (thenCode.next + 1) = .ok elseCode) :
    table.HoldsFrom next (Fragment.append ⟨.empty,
        thenCode.asStructures.join elseCode.asStructures, elseCode.next⟩
          conditionCode).structures.toList ↔
      table.HoldsFrom next thenCode.asStructures.toList ∧
        table.HoldsFrom thenCode.next elseCode.asStructures.toList ∧
        table.HoldsFrom elseCode.next conditionCode.structures.toList := by
  obtain ⟨hnext, hlength⟩ := fragment_next hthen
  obtain ⟨hnext', hlength'⟩ := fragment_next helse
  have hthenNext : next + (thenTree.structureCount + 1) = thenCode.next := by omega
  have helseNext : next + (thenTree.structureCount + 1 + (elseTree.structureCount + 1)) =
      elseCode.next := by omega
  simp only [Fragment.structures_append, Chain.toList_join, Table.holdsFrom_append,
    Fragment.toList_asStructures, List.length_append, List.length_cons, hlength, hlength',
    hthenNext, helseNext, and_assoc]

end Holds

/-- The table holds the code of the tree at a place, and these are the items for the tree itself.
The structures for the function bodies and arms in it have the numbers `id` gives to their
places. -/
inductive LaidOut (table : Table) (id : Site → ControlId) : Site → Tree → List Item → Prop
  | atom (site : Site) (a : Atom) : LaidOut table id site (leaf a) [.load a]
  | binary (site : Site) (op : BinaryOp) {left right : Tree} {leftItems rightItems : List Item} :
      LaidOut table id (0 :: site) left leftItems → LaidOut table id (1 :: site) right rightItems →
      LaidOut table id site (node (.binary op) [left, right])
        (.binary op :: (leftItems ++ rightItems))
  | unary (site : Site) (op : UnaryOp) {operand : Tree} {items : List Item} :
      LaidOut table id (0 :: site) operand items →
      LaidOut table id site (node (.unary op) [operand]) (.unary op :: items)
  | gamma (site : Site) {function argument : Tree} {functionItems argumentItems : List Item} :
      LaidOut table id (0 :: site) function functionItems →
      LaidOut table id (1 :: site) argument argumentItems →
      LaidOut table id site (apply function argument)
        (.gamma :: (functionItems ++ argumentItems))
  | lambda (site : Site) {binder body : Tree} {params : List Name} {items : List Item} :
      binder.boundNames = .ok params → LaidOut table id (1 :: site) body items →
      table.get? (id (1 :: site)) = some ⟨id (1 :: site), items⟩ →
      LaidOut table id site (Tree.lambda binder body) [.lambda (id (1 :: site)) params]
  | conditional (site : Site) {condition thenTree elseTree : Tree}
      {items thenItems elseItems : List Item} :
      LaidOut table id (0 :: site) condition items →
      LaidOut table id (1 :: site) thenTree thenItems →
      table.get? (id (1 :: site)) = some ⟨id (1 :: site), thenItems⟩ →
      LaidOut table id (2 :: site) elseTree elseItems →
      table.get? (id (2 :: site)) = some ⟨id (2 :: site), elseItems⟩ →
      LaidOut table id site (of .conditional [condition, thenTree, elseTree])
        (.branch (id (1 :: site)) (id (2 :: site)) :: .beta :: items)
  | tau (site : Site) {components : List Tree} {codes : List (List Item)} :
      codes.length = components.length →
      (∀ i t items, components[i]? = some t → codes[i]? = some items →
        LaidOut table id (i :: site) t items) →
      LaidOut table id site (of .tau components) (.tau components.length :: codes.flatten)

/-- The layout of the subtree at a place, numbered as the place asks for, whose structures are in
the table. -/
structure Placed (root : Tree) (table : Table) (site : Site) (tree : Tree) (code : Fragment) :
    Prop where
  found : root.at? site = some tree
  layout : tree.fragment (root.numberAt site) = .ok code
  holds : table.HoldsFrom (root.numberAt site) code.structures.toList

variable {root tree : Tree} {table : Table} {site : Site} {code : Fragment}

/-- The layout of a child fits its place if it starts at the offset of the child. -/
theorem Placed.child {sub : Tree} {index next : Nat} (found : root.at? site = some tree)
    (hchild : tree.children[index]? = some sub)
    (hnext : root.numberAt site + tree.offset index = next)
    (layout : sub.fragment next = .ok code)
    (holds : table.HoldsFrom next code.structures.toList) :
    Placed root table (index :: site) sub code := by
  rw [← hnext, ← numberAt_cons found] at layout holds
  exact ⟨at?_cons found hchild, layout, holds⟩

/-- The two children of a node that are laid out one after the other. -/
theorem Placed.pair {left right : Tree} {leftCode rightCode : Fragment}
    (found : root.at? site = some tree) (hchildren : tree.children = [left, right])
    (hzero : tree.offset 0 = 0) (hone : tree.offset 1 = left.structureCount)
    (hleft : left.fragment (root.numberAt site) = .ok leftCode)
    (hright : right.fragment leftCode.next = .ok rightCode)
    (holds : table.HoldsFrom (root.numberAt site)
      (leftCode.append rightCode).structures.toList) :
    Placed root table (0 :: site) left leftCode ∧
      Placed root table (1 :: site) right rightCode := by
  obtain ⟨hnext, -⟩ := fragment_next hleft
  rw [holdsFrom_pair hleft] at holds
  constructor
  · exact .child found (by rw [hchildren]; rfl) (by rw [hzero, Nat.add_zero]) hleft holds.1
  · exact .child found (by rw [hchildren]; rfl) (by rw [hone, hnext]) hright holds.2

/-- The structure made from a function body or an arm has the number before those of the layout
of the body. -/
theorem bodyId_child {index next : Nat} (found : root.at? site = some tree)
    (hnext : root.numberAt site + tree.offset index = next + 1) :
    root.bodyId (index :: site) = ⟨next⟩ := by
  rw [bodyId, numberAt_cons found, hnext, Nat.add_sub_cancel]

theorem structureCountAll_append (first second : List Tree) :
    structureCountAll (first ++ second) = structureCountAll first + structureCountAll second := by
  induction first with
  | nil => simp [structureCountAll]
  | cons tree rest ih =>
    rw [List.cons_append, structureCountAll, structureCountAll, ih, Nat.add_assoc]

/-- The components of a tuple are laid out one after the other. The induction goes along the
components that follow those in `before`. -/
theorem laidOut_components (before : List Tree) {rest : List Tree}
    (found : root.at? site = some (of .tau (before ++ rest)))
    (ih : ∀ t ∈ rest, ∀ {site : Site} {code : Fragment}, Placed root table site t code →
      LaidOut table root.bodyId site t code.items.toList)
    (layout : fragmentAll (root.numberAt site + structureCountAll before) rest = .ok code)
    (holds : table.HoldsFrom (root.numberAt site + structureCountAll before)
      code.structures.toList) :
    ∃ codes : List (List Item), codes.length = rest.length ∧ codes.flatten = code.items.toList ∧
      ∀ i t items, rest[i]? = some t → codes[i]? = some items →
        LaidOut table root.bodyId ((before.length + i) :: site) t items := by
  induction rest generalizing before code with
  | nil =>
    cases layout
    exact ⟨[], rfl, rfl, fun i t items ht => by simp at ht⟩
  | cons tree rest ihRest =>
    obtain ⟨first, others, hfirst, hothers, rfl⟩ := (fragmentAll_cons_ok tree rest).1 layout
    obtain ⟨hnext, -⟩ := fragment_next hfirst
    have hbefore : root.numberAt site + structureCountAll (before ++ [tree]) = first.next := by
      rw [structureCountAll_append, structureCountAll, structureCountAll, hnext]
      omega
    rw [holdsFrom_pair hfirst] at holds
    have htree : LaidOut table root.bodyId (before.length :: site) tree first.items.toList :=
      ih tree (by simp)
        (.child found (by simp [of, children]) (by simp [of, offset]) hfirst holds.1)
    obtain ⟨codes, hlength, hflatten, hcodes⟩ :=
      ihRest (before ++ [tree]) (by simpa using found)
        (fun t ht => ih t (by simp [ht])) (by rw [hbefore]; exact hothers)
        (by rw [hbefore]; exact holds.2)
    refine ⟨first.items.toList :: codes, by simp [hlength], by simp [hflatten], ?_⟩
    intro i t items ht hitems
    cases i with
    | zero =>
      simp only [List.getElem?_cons_zero, Option.some.injEq] at ht hitems
      subst ht hitems
      exact htree
    | succ i =>
      have hlaid := hcodes i t items (by simpa using ht) (by simpa using hitems)
      simpa [Nat.add_assoc, Nat.add_comm 1] using hlaid

/-- A table that holds the structures of a layout holds the code of the tree that was laid out,
and of every subtree of it. -/
theorem laidOut_of_placed (h : Placed root table site tree code) :
    LaidOut table root.bodyId site tree code.items.toList := by
  -- Only core trees have a layout, so there is one case for each core construct.
  have hcore := core_of_fragment h.layout
  induction hcore generalizing site code with
  | atom a =>
    rw [(fragment_leaf_ok a).1 h.layout]
    exact .atom site a
  | @binary op left right _ _ ihLeft ihRight =>
    obtain ⟨found, layout, holds⟩ := h
    obtain ⟨leftCode, rightCode, hleft, hright, rfl⟩ := (fragment_binary_ok op left right).1 layout
    rw [Fragment.structures_cons] at holds
    obtain ⟨hl, hr⟩ := Placed.pair found rfl rfl rfl hleft hright holds
    rw [Fragment.items_cons, Fragment.items_append]
    exact .binary site op (ihLeft hl) (ihRight hr)
  | @unary op operand _ ih =>
    obtain ⟨found, layout, holds⟩ := h
    obtain ⟨operandCode, hoperand, rfl⟩ := (fragment_unary_ok op operand).1 layout
    rw [Fragment.items_cons]
    exact .unary site op (ih (.child found rfl rfl hoperand holds))
  | @lambda binder body params hparams _ ih =>
    obtain ⟨found, layout, holds⟩ := h
    obtain ⟨_, bodyCode, hnames, -, hbody, rfl⟩ := (fragment_lambda_ok binder body).1 layout
    cases hparams.symm.trans hnames
    rw [Fragment.toList_asStructures] at holds
    have hid : root.bodyId (1 :: site) = ⟨root.numberAt site⟩ := bodyId_child found rfl
    have hb : Placed root table (1 :: site) body bodyCode := .child found rfl rfl hbody holds.2
    have hlaid := LaidOut.lambda site hparams (ih hb) (by rw [hid]; exact holds.1)
    rwa [hid] at hlaid
  | @conditional condition thenTree elseTree _ _ _ ihCondition ihThen ihElse =>
    obtain ⟨found, layout, holds⟩ := h
    obtain ⟨thenCode, elseCode, conditionCode, -, hthen, -, helse, hcondition, rfl⟩ :=
      (fragment_conditional_ok condition thenTree elseTree).1 layout
    obtain ⟨hnext, -⟩ := fragment_next hthen
    obtain ⟨hnext', -⟩ := fragment_next helse
    rw [Fragment.structures_cons, Fragment.structures_cons, holdsFrom_conditional hthen helse,
      Fragment.toList_asStructures, Fragment.toList_asStructures] at holds
    have hthenNext : root.numberAt site + (thenTree.structureCount + 1) = thenCode.next := by omega
    have helseNext : root.numberAt site +
        (thenTree.structureCount + 1 + (elseTree.structureCount + 1)) = elseCode.next := by omega
    obtain ⟨⟨getThen, holdsThen⟩, ⟨getElse, holdsElse⟩, holdsCondition⟩ := holds
    have hc : Placed root table (0 :: site) condition conditionCode :=
      .child found rfl helseNext hcondition holdsCondition
    have ht : Placed root table (1 :: site) thenTree thenCode :=
      .child found rfl rfl hthen holdsThen
    have he : Placed root table (2 :: site) elseTree elseCode :=
      .child found rfl (by rw [← hthenNext]; rfl) helse holdsElse
    have hthenId : root.bodyId (1 :: site) = ⟨root.numberAt site⟩ := bodyId_child found rfl
    have helseId : root.bodyId (2 :: site) = ⟨thenCode.next⟩ :=
      bodyId_child found (by rw [← hthenNext]; rfl)
    have hlaid := LaidOut.conditional site (ihCondition hc) (ihThen ht) (by rw [hthenId, getThen])
      (ihElse he) (by rw [helseId, getElse])
    rw [hthenId, helseId] at hlaid
    simpa using hlaid
  | @tau components _ ih =>
    obtain ⟨found, layout, holds⟩ := h
    obtain ⟨parts, hparts, rfl⟩ := (fragment_tau_ok components).1 layout
    obtain ⟨codes, hlength, hflatten, hcodes⟩ := laidOut_components [] found
      (fun t ht _ _ h => ih t ht h) hparts holds
    rw [Fragment.items_cons, ← hflatten]
    exact .tau site hlength fun i t items ht hitems => by simpa using hcodes i t items ht hitems
  | @gamma function argument _ _ ihFunction ihArgument =>
    obtain ⟨found, layout, holds⟩ := h
    obtain ⟨functionCode, argumentCode, hfunction, hargument, rfl⟩ :=
      (fragment_gamma_ok function argument).1 layout
    rw [Fragment.structures_cons] at holds
    obtain ⟨hf, ha⟩ := Placed.pair found rfl rfl rfl hfunction hargument holds
    rw [Fragment.items_cons, Fragment.items_append]
    exact .gamma site (ihFunction hf) (ihArgument ha)

/-- The table of a core tree holds the code of the tree, in structure 0. -/
theorem laidOut_of_ofTree (h : Table.ofTree root = .ok table) :
    ∃ items, LaidOut table root.bodyId [] root items ∧
      table.get? (root.bodyId []) = some ⟨root.bodyId [], items⟩ := by
  obtain ⟨code, hcode, rfl, -⟩ := Table.ofTree_eq_ok.1 h
  have hholds := Table.holdsFrom_ofItems code.asStructures.toList
  rw [Fragment.toList_asStructures] at hholds
  refine ⟨code.items.toList, laidOut_of_placed ⟨rfl, hcode, ?_⟩, ?_⟩
  · rw [Fragment.toList_asStructures]
    exact hholds.2
  · rw [Fragment.toList_asStructures]
    exact hholds.1

end Tree

end EagerLambda
