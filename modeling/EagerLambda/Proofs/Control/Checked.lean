import EagerLambda.Proofs.Checked
import EagerLambda.Proofs.Control.Pairing

/-!
# Layout with checked indexing

The structures of a table are made in place. A structure is put at the end, without items, when the
walk reaches the tree it is made from, and its items are written to its number when they are known.
By then other structures may have been put behind it, but none was taken away, so the number is
still in bounds. The children of a node are read by index after they were counted.

## Main definitions

- `Generator` — computations on the structures made so far
- `Generator.fill` — one structure, made in place
- `Tree.flatten` — the items of a tree, with its structures made on the way
- `Control.Table.ofTreeChecked` — the control table of a tree

## Main statements

- `Tree.flatten_makes` — a walk over a tree makes what its layout says, with every index in bounds
- `Control.Table.ofTreeChecked_gives` — so the table of a tree is made
-/

namespace EagerLambda

open Control

/-- Computations that read and write the structures made so far. -/
abbrev Generator (α : Type) := StateT (List (List Item)) Checked α

namespace Generator

/-- Makes a structure with these items. Its number is taken before they are computed. -/
def fill (items : Generator (List Item)) : Generator ControlId := do
  let structures ← get
  let id ← allocate structures.length
  set (structures ++ [[]])
  let items ← items
  let structures ← get
  let written ← Checked.set structures id.index items
  set written
  pure id

end Generator

namespace Tree

/-- Refuses a node unless it has this many children. -/
def expectChildren (label : Label) (children : List Tree) (count : Nat) : Except Error Unit :=
  if children.length = count then .ok () else wrongCount label count children

/-- Appends the items of a tree to `items`. -/
def flatten (tree : Tree) (items : List Item) : Generator (List Item) :=
  match tree with
  | node (.atom a) children => do
    expectChildren (.atom a) children 0
    pure (items ++ [.load a])
  | node (.binary op) children => do
    expectChildren (.binary op) children 2
    children.foldlM (fun items child => child.flatten items) (items ++ [.binary op])
  | node (.unary op) children => do
    expectChildren (.unary op) children 1
    children.foldlM (fun items child => child.flatten items) (items ++ [.unary op])
  | node (.construct .lambda) children => do
    expectChildren (.construct .lambda) children 2
    let binder ← Checked.get children 0
    let params ← binder.boundNames
    let ⟨body, _⟩ ← Checked.get children.attach 1
    let bodyId ← Generator.fill (body.flatten [])
    pure (items ++ [.lambda bodyId params])
  | node (.construct .conditional) children => do
    expectChildren (.construct .conditional) children 3
    let ⟨thenTree, _⟩ ← Checked.get children.attach 1
    let thenId ← Generator.fill (thenTree.flatten [])
    let ⟨elseTree, _⟩ ← Checked.get children.attach 2
    let elseId ← Generator.fill (elseTree.flatten [])
    let ⟨condition, _⟩ ← Checked.get children.attach 0
    condition.flatten (items ++ [.branch thenId elseId, .beta])
  | node (.construct .tau) children =>
    children.foldlM (fun items child => child.flatten items) (items ++ [.tau children.length])
  | node (.construct .gamma) children => do
    expectChildren (.construct .gamma) children 2
    children.foldlM (fun items child => child.flatten items) (items ++ [.gamma])
  | node (.construct c) _ => (controlError (.notCore c.keyword) : Except Error (List Item))

end Tree

/-- The control table of a core tree. The program is expected to become the entry structure. -/
def Control.Table.ofTreeChecked (tree : Tree) : Checked Table := do
  let (entry, structures) ← Generator.fill (tree.flatten []) []
  Checked.ensure (entry = .entry)
  ofItems? structures

namespace Generator

variable {α β : Type} {structures structures' : List (List Item)} {a : α}

/-- On these structures, every index is in bounds, and the computation comes to this value, with the
structures that there are then, or to this error. -/
def Makes (m : Generator α) (structures : List (List Item))
    (r : Except Error (α × List (List Item))) : Prop :=
  Checked.Gives (m structures) r

namespace Makes

variable {m : Generator α} {f : α → Generator β} {r : Except Error (β × List (List Item))}

/-- A computation that comes to what `result` says, and goes on from there. -/
theorem bind {γ : Type} {result : Except Error γ} {out : γ → α × List (List Item)}
    {rest : γ → Except Error (β × List (List Item))} (hm : m.Makes structures (out <$> result))
    (hf : ∀ c, result = .ok c → (f (out c).1).Makes (out c).2 (rest c)) :
    (m >>= f).Makes structures (result >>= rest) :=
  Checked.Gives.bind_map hm hf

theorem get_bind {f : List (List Item) → Generator β} (hf : (f structures).Makes structures r) :
    (get >>= f).Makes structures r := hf

theorem set_bind {f : PUnit → Generator β} (hf : (f ⟨⟩).Makes structures' r) :
    (set structures' >>= f).Makes structures r := hf

/-- A computation that goes on after a read. -/
theorem lift_bind {c : Checked α} (hc : c.Gives (.ok a)) (hf : (f a).Makes structures r) :
    (liftM c >>= f).Makes structures r := by
  have hrun : c = some (.ok a) := hc
  subst hrun
  exact hf

theorem except_bind {x : Except Error α} {rest : α → Except Error (β × List (List Item))}
    (hf : ∀ a, x = .ok a → (f a).Makes structures (rest a)) :
    (liftM x >>= f).Makes structures (x >>= rest) := by
  cases x with
  | ok a => exact hf a rfl
  | error e => rfl

/-- A computation that goes on with as many children as are expected. -/
theorem counted_bind {f : Unit → Generator β} {label : Label} {children : List Tree} {count : Nat}
    (h : children.length = count) (hf : (f ()).Makes structures r) :
    (liftM (Tree.expectChildren label children count) >>= f).Makes structures r := by
  rw [Tree.expectChildren, if_pos h]
  exact hf

theorem uncounted_bind {f : Unit → Generator β} {label : Label} {children : List Tree} {count : Nat}
    (h : children.length ≠ count) :
    (liftM (Tree.expectChildren label children count) >>= f).Makes structures
      (Tree.wrongCount label count children) := by
  rw [Tree.expectChildren, if_neg h]
  rfl

end Makes

end Generator

/-- What a walk that has `items` and `structures` already has after a tree with this layout. -/
def Control.Fragment.onto (items : List Item) (structures : List (List Item)) (code : Fragment) :
    List Item × List (List Item) :=
  (items ++ code.items.toList, structures ++ code.structures.toList)

section Onto

open Control.Fragment

variable (items : List Item) (structures : List (List Item))

theorem Control.Fragment.onto_empty (next : Nat) :
    (empty next).onto items structures = (items, structures) := by
  simp [onto, empty]

theorem Control.Fragment.onto_single (item : Item) (next : Nat) :
    (single item next).onto items structures = (items ++ [item], structures) := by
  simp [onto, single]

theorem Control.Fragment.onto_append (code others : Fragment) :
    (code.append others).onto items structures =
      others.onto (code.onto items structures).1 (code.onto items structures).2 := by
  simp [onto]

theorem Control.Fragment.onto_cons (item : Item) (code : Fragment) :
    (code.cons item).onto items structures = code.onto (items ++ [item]) structures := by
  simp [onto]

/-- The rest of a layout goes onto what there is after its first part. -/
theorem Control.Fragment.map_onto_append (code : Fragment) (rest : Except Error Fragment) :
    (onto items structures <$> do
      let others ← rest
      .ok (code.append others)) =
    onto (code.onto items structures).1 (code.onto items structures).2 <$> rest := by
  cases rest with
  | error e => rfl
  | ok others => exact congrArg Except.ok (onto_append items structures code others)

/-- The arms of a conditional are made before its condition. -/
theorem Control.Fragment.map_onto_conditional (thenId elseId : ControlId)
    (thenCode elseCode : Fragment) (condition : Except Error Fragment) :
    (onto items structures <$> do
      let conditionCode ← condition
      .ok ((((thenCode.arms elseCode).append conditionCode).cons .beta).cons
        (.branch thenId elseId))) =
    onto (items ++ [.branch thenId elseId, .beta])
      (structures ++ thenCode.asStructures.toList ++ elseCode.asStructures.toList) <$>
        condition := by
  cases condition with
  | error e => rfl
  | ok conditionCode =>
    refine congrArg Except.ok ?_
    simp [onto, arms]

end Onto

namespace Tree

variable {t : Tree} {structures : List (List Item)} {next : Nat}

/-- A walk over the tree makes what its layout says, whatever there is already. -/
def Flattens (t : Tree) : Prop :=
  ∀ items structures next, structures.length = next →
    (t.flatten items).Makes structures (Fragment.onto items structures <$> t.fragment next)

open Generator

theorem length_onto {code : Fragment} (items : List Item) (hnext : structures.length = next)
    (h : t.fragment next = .ok code) : (code.onto items structures).2.length = code.next := by
  obtain ⟨hcodeNext, hlength⟩ := fragment_next h
  rw [Fragment.onto, List.length_append, hlength, hcodeNext, hnext]

/-- The trees of a list are walked over one after the other. -/
theorem foldlM_makes {ts : List Tree} (ih : ∀ t ∈ ts, t.Flattens) (items : List Item)
    (hnext : structures.length = next) :
    (ts.foldlM (fun items t => t.flatten items) items : Generator (List Item)).Makes structures
      (Fragment.onto items structures <$> fragmentAll next ts) := by
  induction ts generalizing items structures next with
  | nil =>
    have hnone : Fragment.onto items structures <$> fragmentAll next [] =
        .ok (items, structures) := congrArg Except.ok (Fragment.onto_empty items structures next)
    rw [hnone]
    rfl
  | cons t rest ihs =>
    rw [List.forall_mem_cons] at ih
    rw [List.foldlM_cons, fragmentAll, map_bind]
    -- The structures made from the first tree only move the number that the others start at.
    refine (ih.1 items structures next hnext).bind fun code hcode => ?_
    have hrest := ihs ih.2 (code.onto items structures).1 (length_onto items hnext hcode)
    rw [Fragment.map_onto_append]
    exact hrest

-- ════════════════════════════════════════════════════════════════════════
-- Structures of their own
-- ════════════════════════════════════════════════════════════════════════

/-- The number that a structure made from the tree takes, and its layout. -/
def ownLayout (t : Tree) (next : Nat) : Except Error (ControlId × Fragment) := do
  let id ← allocate next
  let code ← t.fragment (next + 1)
  .ok (id, code)

/-- What a walk that has `structures` already has after a structure of its own was made. -/
def ownOnto (structures : List (List Item)) (own : ControlId × Fragment) :
    ControlId × List (List Item) :=
  (own.1, structures ++ own.2.asStructures.toList)

theorem length_ownOnto {own : ControlId × Fragment} (hnext : structures.length = next)
    (h : t.ownLayout next = .ok own) : (ownOnto structures own).2.length = own.2.next := by
  obtain ⟨id, -, h⟩ := bind_eq_ok.1 h
  obtain ⟨code, hcode, h⟩ := bind_eq_ok.1 h
  cases h
  rw [ownOnto, List.length_append, length_asStructures hcode, (fragment_next hcode).1]
  omega

/-- When the items of a structure are written its number is in bounds: the structures made meanwhile
lie behind it. -/
theorem fill_makes (h : t.Flattens) (hnext : structures.length = next) :
    (fill (t.flatten [])).Makes structures (ownOnto structures <$> t.ownLayout next) := by
  subst hnext
  rw [ownLayout, map_bind]
  refine .get_bind (.except_bind fun id hid => .set_bind ?_)
  rw [map_bind]
  have hcode := h [] (structures ++ [[]]) (structures.length + 1) (by simp)
  refine hcode.bind fun code _ => .get_bind ?_
  obtain ⟨-, rfl⟩ := allocate_eq_ok.1 hid
  -- The place kept free is still the one after the structures that there were at first.
  have hbound : structures.length < (code.onto [] (structures ++ [[]])).2.length := by
    simp [Fragment.onto]
  have hwritten : (code.onto [] (structures ++ [[]])).2.set structures.length
      (code.onto [] (structures ++ [[]])).1 = structures ++ code.asStructures.toList := by
    simp [Fragment.onto]
  have hset := Checked.Gives.set hbound (code.onto [] (structures ++ [[]])).1
  rw [hwritten] at hset
  exact .lift_bind hset rfl

theorem fragment_lambda_eq (next : Nat) (binder body : Tree) :
    (node (.construct .lambda) [binder, body]).fragment next = (do
      let params ← binder.boundNames
      let (id, code) ← body.ownLayout next
      .ok ⟨.single (.lambda id params), code.asStructures, code.next⟩) := by
  rw [fragment, ownLayout]
  cases binder.boundNames with
  | error e => rfl
  | ok params =>
    cases allocate next with
    | error e => rfl
    | ok id => cases body.fragment (next + 1) <;> rfl

theorem fragment_conditional_eq (next : Nat) (condition thenTree elseTree : Tree) :
    (node (.construct .conditional) [condition, thenTree, elseTree]).fragment next = (do
      let (thenId, thenCode) ← thenTree.ownLayout next
      let (elseId, elseCode) ← elseTree.ownLayout thenCode.next
      let conditionCode ← condition.fragment elseCode.next
      .ok ((((thenCode.arms elseCode).append conditionCode).cons .beta).cons
        (.branch thenId elseId))) := by
  rw [fragment, ownLayout]
  cases allocate next with
  | error e => rfl
  | ok thenId =>
    cases thenTree.fragment (next + 1) with
    | error e => rfl
    | ok thenCode =>
      simp only [ownLayout, bind, Except.bind]
      cases allocate thenCode.next with
      | error e => rfl
      | ok elseId => cases elseTree.fragment (thenCode.next + 1) <;> rfl

theorem lambda_flattens (binder : Tree) {body : Tree} (h : body.Flattens) :
    (node (.construct .lambda) [binder, body]).Flattens := by
  intro items structures next hnext
  rw [flatten, fragment_lambda_eq, map_bind]
  refine .counted_bind rfl (.lift_bind (.get rfl) (.except_bind fun params _ => ?_))
  rw [map_bind]
  exact .lift_bind (.get rfl) ((fill_makes h hnext).bind fun own _ => rfl)

theorem conditional_flattens {condition thenTree elseTree : Tree} (hcondition : condition.Flattens)
    (hthen : thenTree.Flattens) (helse : elseTree.Flattens) :
    (node (.construct .conditional) [condition, thenTree, elseTree]).Flattens := by
  intro items structures next hnext
  rw [flatten, fragment_conditional_eq, map_bind]
  refine .counted_bind rfl (.lift_bind (.get rfl) ?_)
  refine (fill_makes hthen hnext).bind fun own hown => ?_
  rw [map_bind]
  -- Each part starts to number where the one before has stopped: then, else, condition.
  have hlater := length_ownOnto hnext hown
  refine .lift_bind (.get rfl) ((fill_makes helse hlater).bind fun own' hown' => ?_)
  refine .lift_bind (.get rfl) ?_
  have hlast := hcondition (items ++ [.branch own.1 own'.1, .beta]) _ _
    (length_ownOnto hlater hown')
  rw [Fragment.map_onto_conditional]
  exact hlast

-- ════════════════════════════════════════════════════════════════════════
-- Operators over their operands
-- ════════════════════════════════════════════════════════════════════════

section Operands

variable (items : List Item) (structures : List (List Item)) (item : Item) (next : Nat)

theorem map_onto_all (ts : List Tree) :
    (Fragment.onto items structures <$> do
      let parts ← fragmentAll next ts
      .ok (parts.cons item)) =
      Fragment.onto (items ++ [item]) structures <$> fragmentAll next ts := by
  cases fragmentAll next ts with
  | error e => rfl
  | ok parts => exact congrArg Except.ok (Fragment.onto_cons items structures item parts)

theorem map_onto_one (operand : Tree) :
    (Fragment.onto items structures <$> do
      let code ← operand.fragment next
      .ok (code.cons item)) =
      Fragment.onto (items ++ [item]) structures <$> fragmentAll next [operand] := by
  rw [fragmentAll, map_bind, map_bind]
  refine congrArg _ (funext fun code => ?_)
  rw [Fragment.map_onto_append, fragmentAll]
  refine congrArg Except.ok ?_
  rw [Fragment.onto_cons, Fragment.onto_empty]

theorem map_onto_two (left right : Tree) :
    (Fragment.onto items structures <$> do
      let leftCode ← left.fragment next
      let rightCode ← right.fragment leftCode.next
      .ok ((leftCode.append rightCode).cons item)) =
      Fragment.onto (items ++ [item]) structures <$> fragmentAll next [left, right] := by
  rw [fragmentAll, map_bind, map_bind]
  refine congrArg _ (funext fun leftCode => ?_)
  rw [Fragment.map_onto_append, fragmentAll, map_bind, map_bind]
  refine congrArg _ (funext fun rightCode => ?_)
  rw [Fragment.map_onto_append, fragmentAll]
  refine congrArg Except.ok ?_
  rw [Fragment.onto_cons, Fragment.onto_append, Fragment.onto_empty]

end Operands

/-- Every tree, of whatever shape, is walked over without an index out of bounds: its children are
read after they were counted. -/
theorem flatten_makes (t : Tree) : t.Flattens := by
  induction t using children_induction with
  | node label children ih =>
    intro items structures next hnext
    have hall := fun items => foldlM_makes ih items hnext
    cases label with
    | atom a =>
      rw [flatten]
      rcases children with _ | ⟨child, rest⟩
      · have hsingle := Fragment.onto_single items structures (.load a) next
        exact .counted_bind rfl (congrArg (fun made => some (Except.ok made)) hsingle.symm)
      · exact .uncounted_bind (by simp)
    | binary op =>
      rw [flatten]
      rcases children with _ | ⟨left, _ | ⟨right, _ | ⟨_, _⟩⟩⟩
      case cons.cons.nil =>
        rw [fragment, map_onto_two]
        exact .counted_bind rfl (hall _)
      all_goals exact .uncounted_bind (by simp)
    | unary op =>
      rw [flatten]
      rcases children with _ | ⟨operand, _ | ⟨_, _⟩⟩
      case cons.nil =>
        rw [fragment, map_onto_one]
        exact .counted_bind rfl (hall _)
      all_goals exact .uncounted_bind (by simp)
    | construct c =>
      cases c with
      | lambda =>
        rcases children with _ | ⟨binder, _ | ⟨body, _ | ⟨_, _⟩⟩⟩
        case cons.cons.nil => exact lambda_flattens binder (ih body (by simp)) _ _ _ hnext
        all_goals
          rw [flatten]
          exact .uncounted_bind (by simp)
      | conditional =>
        rcases children with _ | ⟨condition, _ | ⟨thenTree, _ | ⟨elseTree, _ | ⟨_, _⟩⟩⟩⟩
        case cons.cons.cons.nil =>
          exact conditional_flattens (ih condition (by simp)) (ih thenTree (by simp))
            (ih elseTree (by simp)) _ _ _ hnext
        all_goals
          rw [flatten]
          exact .uncounted_bind (by simp)
      | tau =>
        rw [flatten, fragment, map_onto_all]
        exact hall _
      | gamma =>
        rw [flatten]
        rcases children with _ | ⟨function, _ | ⟨argument, _ | ⟨_, _⟩⟩⟩
        case cons.cons.nil =>
          rw [fragment, map_onto_two]
          exact .counted_bind rfl (hall _)
        all_goals exact .uncounted_bind (by simp)
      | _ =>
        rw [flatten]
        · rfl
        all_goals exact fun h => by cases h

end Tree

/-- The table of every tree is made, or refused, without an index out of bounds. -/
theorem Control.Table.ofTreeChecked_gives (tree : Tree) :
    (ofTreeChecked tree).Gives (ofTree tree) := by
  have hentry : Tree.ownOnto [] <$> tree.ownLayout 0 =
      (fun program => (.entry, program.asStructures.toList)) <$> tree.fragment 1 := by
    have hown : tree.ownLayout 0 = (do
        let program ← tree.fragment 1
        .ok (.entry, program)) := rfl
    rw [hown]
    cases tree.fragment 1 <;> rfl
  have hfill : Checked.Gives (Generator.fill (tree.flatten []) [])
      (Tree.ownOnto [] <$> tree.ownLayout 0) := Tree.fill_makes tree.flatten_makes rfl
  rw [hentry] at hfill
  exact hfill.bind_map fun program _ => (Checked.Gives.ensure rfl).bind_ok (.of_except _)

end EagerLambda
