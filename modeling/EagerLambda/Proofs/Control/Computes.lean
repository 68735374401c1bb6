import EagerLambda.Proofs.Control.Numbering

/-!
# What the items of a tree compute

Executed one after the other, the items for a tree make a single value: each takes the values that
it needs off the top of those that are there and leaves one in their place, and a conditional goes
on with the items of one of its arms. As no arm leads back to the conditional, the number of turns
that this takes can be read off the tree, as long as no function is applied.

## Main definitions

- `Control.Item.arity` — how many values an item takes
- `Control.Computes` — items that make a single value of the topmost values
- `Control.Table.Sound` — every structure of a table makes a value of nothing
- `Tree.turns` — how many turns the items of a tree take

## Main statements

- `Tree.turns_le` — there are at least as many nodes as turns
- `Tree.computes_of_fragment` — the items for a tree make a value of nothing
- `Control.Table.ofTree_computes` — so does every structure of the table of a tree
-/

namespace EagerLambda

namespace Control

/-- How many values the rule for an item takes off the operand stack. -/
def Item.arity : Item → Nat
  | load _ => 0
  | gamma => 2
  | binary _ => 2
  | unary _ => 1
  | lambda _ _ => 0
  | tau count => count
  | branch _ _ => 0
  | beta => 1

/-- Executed in order, the items make a single value of the `height` topmost values. This takes at
most `turns` turns besides those of the functions that are applied. -/
inductive Computes (table : Table) : (items : List Item) → (height turns : Nat) → Prop
  | done : Computes table [] 1 0
  | item {item : Item} {todo : List Item} {height turns : Nat} : item ≠ .beta →
      Computes table todo (height + 1) turns →
      Computes table (item :: todo) (item.arity + height) (turns + 1)
  | choice {thenId elseId : ControlId} {thenArm elseArm : Structure} {todo : List Item}
      {height thenTurns elseTurns turns : Nat} :
      table.get? thenId = some thenArm → Computes table thenArm.executionOrder 0 thenTurns →
      table.get? elseId = some elseArm → Computes table elseArm.executionOrder 0 elseTurns →
      Computes table todo (height + 1) turns →
      Computes table (.beta :: .branch thenId elseId :: todo) (height + 1)
        (turns + max thenTurns elseTurns + 1)

namespace Computes

variable {table : Table} {item : Item} {items todo : List Item}
  {height height' turns turns' : Nat}

theorem congr (h : Computes table items height turns) (hheight : height = height')
    (hturns : turns = turns') : Computes table items height' turns' := by
  subst hheight hturns
  exact h

/-- The value that the first items make is one of those that the others take. -/
theorem append (h : Computes table items height turns)
    (hrest : Computes table todo (height' + 1) turns') :
    Computes table (items ++ todo) (height + height') (turns + turns') := by
  induction h with
  | done => exact hrest.congr (Nat.add_comm height' 1) (Nat.zero_add turns').symm
  | @item item items height turns hbeta _ ih =>
    have htodo : Computes table (items ++ todo) (height + height' + 1) (turns + turns') :=
      ih.congr (Nat.add_right_comm height 1 height') rfl
    exact (Computes.item hbeta htodo).congr (Nat.add_assoc _ _ _).symm (by omega)
  | @choice _ _ _ _ items height thenTurns elseTurns turns hthen hthenArm helse helseArm _ _ _ ih =>
    have htodo : Computes table (items ++ todo) (height + height' + 1) (turns + turns') :=
      ih.congr (Nat.add_right_comm height 1 height') rfl
    exact (Computes.choice hthen hthenArm helse helseArm htodo).congr (by omega) (by omega)

/-- Items that need no value make one more. -/
theorem prepend (h : Computes table items 0 turns)
    (hrest : Computes table todo (height + 1) turns') :
    Computes table (items ++ todo) height (turns + turns') :=
  (h.append hrest).congr (Nat.zero_add height) rfl

/-- The last item of a sequence takes all values that are there. -/
theorem single (item : Item) (hbeta : item ≠ .beta) : Computes table [item] item.arity 1 :=
  Computes.item hbeta .done

/-- Two applications take three values. -/
theorem apply_twice (h : Computes table todo (height + 1) turns) :
    Computes table (.gamma :: .gamma :: todo) (height + 3) (turns + 2) := by
  have hlast : Computes table (.gamma :: todo) (2 + height) (turns + 1) :=
    .item Item.noConfusion h
  have hfirst : Computes table (.gamma :: .gamma :: todo) (2 + (height + 1)) (turns + 1 + 1) :=
    .item Item.noConfusion (hlast.congr (by omega) rfl)
  exact hfirst.congr (by omega) rfl

theorem nil_iff : Computes table [] height turns ↔ height = 1 ∧ turns = 0 := by
  constructor
  · rintro ⟨⟩
    exact ⟨rfl, rfl⟩
  · rintro ⟨rfl, rfl⟩
    exact .done

theorem item_inv (hbeta : item ≠ .beta) (h : Computes table (item :: todo) height turns) :
    ∃ height' turns', height = item.arity + height' ∧ turns = turns' + 1 ∧
      Computes table todo (height' + 1) turns' := by
  cases h with
  | item _ htodo => exact ⟨_, _, rfl, rfl, htodo⟩
  | choice => exact absurd rfl hbeta

theorem beta_inv (h : Computes table (.beta :: todo) height turns) :
    ∃ thenId elseId others height' turns', todo = .branch thenId elseId :: others ∧
      height = height' + 1 ∧ Computes table others (height' + 1) turns' ∧
      ∀ b : Bool, ∃ arm armTurns, table.get? (if b then thenId else elseId) = some arm ∧
        Computes table arm.executionOrder 0 armTurns ∧ armTurns + turns' < turns := by
  cases h with
  | item hbeta => exact absurd rfl hbeta
  | choice hthen hthenArm helse helseArm htodo =>
    refine ⟨_, _, _, _, _, rfl, rfl, htodo, fun b => ?_⟩
    cases b with
    | true => exact ⟨_, _, hthen, hthenArm, by omega⟩
    | false => exact ⟨_, _, helse, helseArm, by omega⟩

end Computes

/-- Every structure of the table makes a value of nothing, in at most `bound` turns besides those of
the functions that are applied. -/
def Table.Sound (table : Table) (bound : Nat) : Prop :=
  ∀ id found, table.get? id = some found →
    ∃ turns ≤ bound, Computes table found.executionOrder 0 turns

end Control

open Control

namespace Tree

mutual

/-- How many turns the items for a tree take, as long as no function is applied. -/
def turns : Tree → Nat
  | node (.construct .lambda) _ => 1
  | node (.construct .conditional) [condition, thenTree, elseTree] =>
    condition.turns + max thenTree.turns elseTree.turns + 1
  | node _ children => turnsAll children + 1

/-- How many turns the items for the trees of a list take together. -/
def turnsAll : List Tree → Nat
  | [] => 0
  | tree :: rest => tree.turns + turnsAll rest

end

variable {tree : Tree} {table : Table} {next bound bound' : Nat} {code : Fragment}

/-- A tree of a list has no more nodes than all of them together. -/
theorem length_labels_le {trees : List Tree} (h : tree ∈ trees) :
    tree.labels.length ≤ (labelsAll trees).length := by
  induction trees with
  | nil => cases h
  | cons first rest ih =>
    rw [labelsAll, List.length_append]
    rcases List.mem_cons.1 h with rfl | h
    · exact Nat.le_add_right _ _
    · exact Nat.le_trans (ih h) (Nat.le_add_left _ _)

/-- A tree has fewer nodes than the tree that it is a child of. -/
theorem length_labels_lt {label : Label} {children : List Tree} (h : tree ∈ children) :
    tree.labels.length < (node label children).labels.length :=
  Nat.lt_succ_of_le (length_labels_le h)

theorem turnsAll_le {trees : List Tree} (h : ∀ t ∈ trees, t.turns ≤ t.labels.length) :
    turnsAll trees ≤ (labelsAll trees).length := by
  induction trees with
  | nil => exact Nat.le_refl 0
  | cons tree rest ih =>
    have hfirst := h tree List.mem_cons_self
    have hrest := ih fun t ht => h t (List.mem_cons_of_mem tree ht)
    rw [turnsAll, labelsAll, List.length_append]
    omega

/-- The items for a tree take no more turns than the tree has nodes. -/
theorem turns_le (tree : Tree) : tree.turns ≤ tree.labels.length := by
  induction tree using children_induction with
  | node label children ih =>
    have hall := turnsAll_le ih
    rw [labels, List.length_cons, turns.eq_def]
    split
    · exact Nat.le_add_left 1 _
    · next heq =>
      cases heq
      simp only [turnsAll] at hall
      omega
    · next heq =>
      cases heq
      omega

/-- Every sequence of items in the list makes a value of nothing, in at most `bound` turns. -/
def AllCompute (table : Table) (bound : Nat) (sequences : List (List Item)) : Prop :=
  ∀ items ∈ sequences, ∃ turns ≤ bound, Computes table items.reverse 0 turns

theorem AllCompute.append {first second : List (List Item)} (hfirst : AllCompute table bound first)
    (hsecond : AllCompute table bound second) : AllCompute table bound (first ++ second) := by
  intro items hitems
  rcases List.mem_append.1 hitems with h | h
  · exact hfirst items h
  · exact hsecond items h

theorem AllCompute.cons {items : List Item} {rest : List (List Item)} {turns : Nat}
    (hitems : Computes table items.reverse 0 turns) (hturns : turns ≤ bound)
    (hrest : AllCompute table bound rest) : AllCompute table bound (items :: rest) := by
  intro items' hitems'
  rcases List.mem_cons.1 hitems' with rfl | h
  · exact ⟨turns, hturns, hitems⟩
  · exact hrest items' h

theorem AllCompute.mono {sequences : List (List Item)} (h : AllCompute table bound sequences)
    (hle : bound ≤ bound') : AllCompute table bound' sequences := by
  intro items hitems
  obtain ⟨turns, hturns, hcomputes⟩ := h items hitems
  exact ⟨turns, Nat.le_trans hturns hle, hcomputes⟩

/-- The items for a tree make a value, and so does every structure that the tree adds. -/
def ComputedBy (table : Table) (tree : Tree) (code : Fragment) : Prop :=
  Computes table code.items.toList.reverse 0 tree.turns ∧
    AllCompute table tree.labels.length code.structures.toList

/-- The items for the components of a tuple make as many values. -/
theorem computes_components {trees : List Tree}
    (hparts : ∀ t ∈ trees, ∀ {next : Nat} {code : Fragment}, t.fragment next = .ok code →
      table.HoldsFrom next code.structures.toList → ComputedBy table t code)
    (hcode : fragmentAll next trees = .ok code)
    (hholds : table.HoldsFrom next code.structures.toList) :
    (∀ {todo : List Item} {height turns : Nat},
      Computes table todo (trees.length + height) turns →
        Computes table (code.items.toList.reverse ++ todo) height (turnsAll trees + turns)) ∧
      AllCompute table (labelsAll trees).length code.structures.toList := by
  induction trees generalizing next code with
  | nil =>
    cases hcode
    refine ⟨fun htodo => ?_, fun _ h => absurd h List.not_mem_nil⟩
    exact htodo.congr (Nat.zero_add _) (Nat.zero_add _).symm
  | cons tree rest ih =>
    obtain ⟨first, others, hfirst, hothers, rfl⟩ := (fragmentAll_cons_ok tree rest).1 hcode
    obtain ⟨hholdsFirst, hholdsOthers⟩ := (holdsFrom_pair hfirst).1 hholds
    obtain ⟨hitems, hstructures⟩ := hparts tree List.mem_cons_self hfirst hholdsFirst
    obtain ⟨hrest, hstructures'⟩ :=
      ih (fun t ht => hparts t (List.mem_cons_of_mem tree ht)) hothers hholdsOthers
    refine ⟨fun {todo height turns} htodo => ?_, ?_⟩
    · rw [List.length_cons] at htodo
      have hhere := hitems.prepend (htodo.congr (Nat.add_right_comm _ 1 height) rfl)
      rw [Fragment.items_append, List.reverse_append, List.append_assoc, turnsAll]
      exact (hrest hhere).congr rfl (by omega)
    · rw [Fragment.structures_append, labelsAll, List.length_append]
      exact (hstructures.mono (Nat.le_add_right _ _)).append
        (hstructures'.mono (Nat.le_add_left _ _))

/-- The items for two trees that are laid out one after the other, with an item that takes both
values. -/
theorem computes_pair {item : Item} {label : Label} {left right : Tree}
    {leftCode rightCode : Fragment} (hbeta : item ≠ .beta) (harity : item.arity = 2)
    (hleft : ComputedBy table left leftCode) (hright : ComputedBy table right rightCode) :
    Computes table ((leftCode.append rightCode).cons item).items.toList.reverse 0
        (turnsAll [left, right] + 1) ∧
      AllCompute table (node label [left, right]).labels.length
        ((leftCode.append rightCode).cons item).structures.toList := by
  have hitem : Computes table [item] (0 + 1 + 1) 1 := (Computes.single item hbeta).congr harity rfl
  have hnodes : ∀ t ∈ [left, right], t.labels.length ≤ (node label [left, right]).labels.length :=
    fun t ht => Nat.le_of_lt (length_labels_lt ht)
  refine ⟨?_, ?_⟩
  · rw [Fragment.items_cons, Fragment.items_append, List.reverse_cons, List.reverse_append,
      List.append_assoc]
    exact (hright.1.prepend (hleft.1.prepend hitem)).congr rfl
      (by simp only [turnsAll]; omega)
  · rw [Fragment.structures_cons, Fragment.structures_append]
    exact (hleft.2.mono (hnodes left (by simp))).append (hright.2.mono (hnodes right (by simp)))

/-- The items for a tree make a value of nothing, and so does every structure that the tree adds. -/
theorem computes_of_fragment (hcode : tree.fragment next = .ok code)
    (hholds : table.HoldsFrom next code.structures.toList) : ComputedBy table tree code := by
  induction core_of_fragment hcode generalizing next code with
  | atom a =>
    rw [fragment_leaf_ok] at hcode
    subst hcode
    exact ⟨Computes.single (.load a) Item.noConfusion, fun _ h => absurd h List.not_mem_nil⟩
  | @binary op left right _ _ ihLeft ihRight =>
    obtain ⟨leftCode, rightCode, hleft, hright, rfl⟩ := (fragment_binary_ok op left right).1 hcode
    rw [Fragment.structures_cons, holdsFrom_pair hleft] at hholds
    exact computes_pair Item.noConfusion rfl (ihLeft hleft hholds.1) (ihRight hright hholds.2)
  | @unary op operand _ ihOperand =>
    obtain ⟨operandCode, hoperand, rfl⟩ := (fragment_unary_ok op operand).1 hcode
    obtain ⟨hitems, hstructures⟩ := ihOperand hoperand hholds
    refine ⟨?_, hstructures.mono (Nat.le_of_lt (length_labels_lt List.mem_cons_self))⟩
    rw [Fragment.items_cons, List.reverse_cons]
    exact hitems.prepend (Computes.single (.unary op) Item.noConfusion)
  | @lambda binder body params hparams _ ihBody =>
    obtain ⟨params, bodyCode, -, -, hbody, rfl⟩ := (fragment_lambda_ok binder body).1 hcode
    rw [Fragment.toList_asStructures] at hholds
    obtain ⟨hitems, hstructures⟩ := ihBody hbody hholds.2
    have hnodes : body.labels.length ≤ (lambda binder body).labels.length :=
      Nat.le_of_lt (length_labels_lt (List.mem_cons_of_mem _ List.mem_cons_self))
    refine ⟨Computes.single (.lambda ⟨next⟩ params) Item.noConfusion, ?_⟩
    rw [Fragment.toList_asStructures]
    exact (hstructures.mono hnodes).cons hitems (Nat.le_trans body.turns_le hnodes)
  | @conditional condition thenTree elseTree _ _ _ ihCondition ihThen ihElse =>
    obtain ⟨thenCode, elseCode, conditionCode, -, hthen, -, helse, hcondition, rfl⟩ :=
      (fragment_conditional_ok condition thenTree elseTree).1 hcode
    rw [Fragment.structures_cons, Fragment.structures_cons, holdsFrom_conditional hthen helse,
      Fragment.toList_asStructures, Fragment.toList_asStructures] at hholds
    obtain ⟨⟨hthenGet, hholdsThen⟩, ⟨helseGet, hholdsElse⟩, hholdsCondition⟩ := hholds
    obtain ⟨hthenItems, hthenStructures⟩ := ihThen hthen hholdsThen
    obtain ⟨helseItems, helseStructures⟩ := ihElse helse hholdsElse
    obtain ⟨hitems, hstructures⟩ := ihCondition hcondition hholdsCondition
    have hchoice : Computes table [.beta, .branch ⟨next⟩ ⟨thenCode.next⟩] (0 + 1)
        (0 + max thenTree.turns elseTree.turns + 1) :=
      .choice hthenGet hthenItems helseGet helseItems .done
    have hnodes : ∀ t ∈ [condition, thenTree, elseTree],
        t.labels.length ≤ (of .conditional [condition, thenTree, elseTree]).labels.length :=
      fun t ht => Nat.le_of_lt (length_labels_lt ht)
    have hthenNodes := hnodes thenTree (by simp)
    have helseNodes := hnodes elseTree (by simp)
    refine ⟨?_, ?_⟩
    · have hreverse : (((Fragment.append ⟨.empty, thenCode.asStructures.join
          elseCode.asStructures, elseCode.next⟩ conditionCode).cons .beta).cons
            (.branch ⟨next⟩ ⟨thenCode.next⟩)).items.toList.reverse =
          conditionCode.items.toList.reverse ++ [.beta, .branch ⟨next⟩ ⟨thenCode.next⟩] := by
        simp
      rw [hreverse]
      exact (hitems.prepend hchoice).congr rfl (by simp only [of, turns]; omega)
    · rw [Fragment.structures_cons, Fragment.structures_cons, Fragment.structures_append,
        Chain.toList_join, Fragment.toList_asStructures, Fragment.toList_asStructures]
      have hthenAll := (hthenStructures.mono hthenNodes).cons hthenItems
        (Nat.le_trans thenTree.turns_le hthenNodes)
      have helseAll := (helseStructures.mono helseNodes).cons helseItems
        (Nat.le_trans elseTree.turns_le helseNodes)
      exact (hthenAll.append helseAll).append (hstructures.mono (hnodes condition (by simp)))
  | @tau components _ ih =>
    obtain ⟨parts, hparts, rfl⟩ := (fragment_tau_ok components).1 hcode
    obtain ⟨hitems, hstructures⟩ :=
      computes_components (fun t ht _ _ hcode hholds => ih t ht hcode hholds) hparts hholds
    refine ⟨?_, hstructures.mono (Nat.le_succ _)⟩
    rw [Fragment.items_cons, List.reverse_cons]
    exact hitems (Computes.single (.tau components.length) Item.noConfusion)
  | @gamma function argument _ _ ihFunction ihArgument =>
    obtain ⟨functionCode, argumentCode, hfunction, hargument, rfl⟩ :=
      (fragment_gamma_ok function argument).1 hcode
    rw [Fragment.structures_cons, holdsFrom_pair hfunction] at hholds
    exact computes_pair Item.noConfusion rfl (ihFunction hfunction hholds.1)
      (ihArgument hargument hholds.2)

end Tree

namespace Control.Table

/-- Every structure of the table of a tree makes a value of nothing, in no more turns than the tree
has nodes, and the entry takes the turns of the tree. -/
theorem ofTree_computes {tree : Tree} {table : Table} (h : ofTree tree = .ok table) :
    (∃ entry, table.entry? = some entry ∧
      Computes table entry.executionOrder 0 tree.turns) ∧ table.Sound tree.labels.length := by
  obtain ⟨code, hcode, rfl, -⟩ := ofTree_eq_ok.1 h
  have hholds := holdsFrom_ofItems code.asStructures.toList
  rw [Fragment.toList_asStructures] at hholds ⊢
  obtain ⟨hentry, hstructures⟩ := hholds
  obtain ⟨hitems, hall⟩ := Tree.computes_of_fragment hcode hstructures
  refine ⟨⟨_, hentry, hitems⟩, fun id found hfound => ?_⟩
  rw [get?_ofItems] at hfound
  obtain ⟨items, hget, rfl⟩ := Option.map_eq_some_iff.1 hfound
  exact hall.cons hitems tree.turns_le items (List.mem_of_getElem? hget)

end Control.Table

end EagerLambda
