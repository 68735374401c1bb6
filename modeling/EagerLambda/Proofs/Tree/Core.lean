import EagerLambda.Control.Fragment

/-!
# Core trees

A tree is core if it consists of atoms, operators and the five core constructs, each with the
children it asks for. These are the trees that can be laid out.

## Main definitions

- `Tree.Core` — core trees

## Main statements

- `Tree.children_induction` — induction over a tree and its subtrees
- `Tree.core_of_fragment` — a tree that has a layout is core
- `Tree.fragment_gamma_ok` and its like — how the layout of a core tree is made
-/

namespace EagerLambda

open Control

/-- A computation with a result got through its first part. -/
theorem bind_eq_ok {ε α β : Type} {r : Except ε α} {f : α → Except ε β} {b : β} :
    (r >>= f) = .ok b ↔ ∃ a, r = .ok a ∧ f a = .ok b := by
  cases r with
  | error e => exact ⟨fun h => (nomatch h), fun ⟨_, h, _⟩ => (nomatch h)⟩
  | ok a => exact ⟨fun h => ⟨a, rfl, h⟩, fun ⟨_, h, hf⟩ => by cases h; exact hf⟩

namespace Tree

/-- Induction over a tree: what holds of a node if it holds of its children holds of all trees. -/
@[elab_as_elim]
theorem children_induction {P : Tree → Prop}
    (node : ∀ label children, (∀ child ∈ children, P child) → P (.node label children))
    (tree : Tree) : P tree :=
  match tree with
  | .node label children => node label children fun child _ => children_induction node child

theorem name?_eq_some {tree : Tree} {name : Name} :
    tree.name? = some name ↔ tree = identifier name := by
  constructor
  · intro h
    unfold name? at h
    split at h
    · cases h
      rfl
    · cases h
  · rintro rfl
    rfl

/-- A parameter list consists of the identifiers that it binds. -/
theorem parameterNames_eq_ok {trees : List Tree} {names : List Name} :
    parameterNames trees = .ok names ↔ trees = names.map identifier := by
  induction trees generalizing names with
  | nil =>
    rw [parameterNames, Except.ok.injEq, eq_comm, eq_comm (a := []), List.map_eq_nil_iff]
  | cons tree rest ih =>
    rw [parameterNames]
    constructor
    · intro h
      split at h
      · cases h
      · next x hx =>
        obtain ⟨xs, hxs, h⟩ := bind_eq_ok.1 h
        cases h
        rw [name?_eq_some.1 hx, ih.1 hxs, List.map_cons]
    · intro h
      obtain ⟨x, xs, rfl, rfl, rfl⟩ := List.map_eq_cons_iff.1 h.symm
      exact bind_eq_ok.2 ⟨xs, ih.2 rfl, rfl⟩

/-- The trees that consist of core constructs only. -/
inductive Core : Tree → Prop
  | atom (a : Atom) : Core (leaf a)
  | binary (op : BinaryOp) {left right : Tree} :
      Core left → Core right → Core (.node (.binary op) [left, right])
  | unary (op : UnaryOp) {operand : Tree} : Core operand → Core (.node (.unary op) [operand])
  | lambda {binder body : Tree} {params : List Name} :
      binder.boundNames = .ok params → Core body → Core (.lambda binder body)
  | conditional {condition thenTree elseTree : Tree} :
      Core condition → Core thenTree → Core elseTree →
      Core (.of .conditional [condition, thenTree, elseTree])
  | tau {components : List Tree} : (∀ t ∈ components, Core t) → Core (.of .tau components)
  | gamma {function argument : Tree} : Core function → Core argument →
      Core (.apply function argument)

variable {next : Nat} {code : Fragment}

theorem allocate_eq_ok {id : ControlId} :
    allocate next = .ok id ↔ next < handleLimit ∧ id = ⟨next⟩ := by
  rw [allocate]
  split
  case isTrue h => simp [h, eq_comm]
  case isFalse h => simp [controlError, h]

theorem fragment_leaf_ok (a : Atom) :
    (leaf a).fragment next = .ok code ↔ code = .single (.load a) next := by
  simp [leaf, fragment, eq_comm]

theorem fragment_binary_ok (op : BinaryOp) (left right : Tree) :
    (node (.binary op) [left, right]).fragment next = .ok code ↔
      ∃ leftCode rightCode, left.fragment next = .ok leftCode ∧
        right.fragment leftCode.next = .ok rightCode ∧
        code = (leftCode.append rightCode).cons (.binary op) := by
  simp only [fragment, bind_eq_ok, Except.ok.injEq]
  exact ⟨fun ⟨l, hl, r, hr, h⟩ => ⟨l, r, hl, hr, h.symm⟩,
    fun ⟨l, r, hl, hr, h⟩ => ⟨l, hl, r, hr, h.symm⟩⟩

theorem fragment_gamma_ok (function argument : Tree) :
    (apply function argument).fragment next = .ok code ↔
      ∃ functionCode argumentCode, function.fragment next = .ok functionCode ∧
        argument.fragment functionCode.next = .ok argumentCode ∧
        code = (functionCode.append argumentCode).cons .gamma := by
  simp only [apply, of, fragment, bind_eq_ok, Except.ok.injEq]
  exact ⟨fun ⟨l, hl, r, hr, h⟩ => ⟨l, r, hl, hr, h.symm⟩,
    fun ⟨l, r, hl, hr, h⟩ => ⟨l, hl, r, hr, h.symm⟩⟩

theorem fragment_unary_ok (op : UnaryOp) (operand : Tree) :
    (node (.unary op) [operand]).fragment next = .ok code ↔
      ∃ operandCode, operand.fragment next = .ok operandCode ∧
        code = operandCode.cons (.unary op) := by
  simp only [fragment, bind_eq_ok, Except.ok.injEq, eq_comm (a := code)]

theorem fragment_tau_ok (components : List Tree) :
    (of .tau components).fragment next = .ok code ↔
      ∃ parts, fragmentAll next components = .ok parts ∧
        code = parts.cons (.tau components.length) := by
  simp only [of, fragment, bind_eq_ok, Except.ok.injEq, eq_comm (a := code)]

theorem fragment_lambda_ok (binder body : Tree) :
    (lambda binder body).fragment next = .ok code ↔
      ∃ params bodyCode, binder.boundNames = .ok params ∧ next < handleLimit ∧
        body.fragment (next + 1) = .ok bodyCode ∧
        code = ⟨.single (.lambda ⟨next⟩ params), bodyCode.asStructures, bodyCode.next⟩ := by
  simp only [lambda, of, fragment, bind_eq_ok, allocate_eq_ok, Except.ok.injEq]
  constructor
  · rintro ⟨params, hparams, id, ⟨hnext, rfl⟩, bodyCode, hbody, rfl⟩
    exact ⟨params, bodyCode, hparams, hnext, hbody, rfl⟩
  · rintro ⟨params, bodyCode, hparams, hnext, hbody, rfl⟩
    exact ⟨params, hparams, ⟨next⟩, ⟨hnext, rfl⟩, bodyCode, hbody, rfl⟩

theorem fragment_conditional_ok (condition thenTree elseTree : Tree) :
    (of .conditional [condition, thenTree, elseTree]).fragment next = .ok code ↔
      ∃ thenCode elseCode conditionCode, next < handleLimit ∧
        thenTree.fragment (next + 1) = .ok thenCode ∧ thenCode.next < handleLimit ∧
        elseTree.fragment (thenCode.next + 1) = .ok elseCode ∧
        condition.fragment elseCode.next = .ok conditionCode ∧
        code = ((Fragment.append ⟨.empty, thenCode.asStructures.join elseCode.asStructures,
          elseCode.next⟩ conditionCode).cons .beta).cons (.branch ⟨next⟩ ⟨thenCode.next⟩) := by
  simp only [of, fragment, bind_eq_ok, allocate_eq_ok, Except.ok.injEq]
  constructor
  · rintro ⟨_, ⟨hnext, rfl⟩, thenCode, hthen, _, ⟨hnext', rfl⟩, elseCode, helse, conditionCode,
      hcondition, rfl⟩
    exact ⟨thenCode, elseCode, conditionCode, hnext, hthen, hnext', helse, hcondition, rfl⟩
  · rintro ⟨thenCode, elseCode, conditionCode, hnext, hthen, hnext', helse, hcondition, rfl⟩
    exact ⟨_, ⟨hnext, rfl⟩, thenCode, hthen, _, ⟨hnext', rfl⟩, elseCode, helse, conditionCode,
      hcondition, rfl⟩

theorem fragmentAll_cons_ok (tree : Tree) (rest : List Tree) :
    fragmentAll next (tree :: rest) = .ok code ↔
      ∃ first others, tree.fragment next = .ok first ∧
        fragmentAll first.next rest = .ok others ∧ code = first.append others := by
  simp only [fragmentAll, bind_eq_ok, Except.ok.injEq]
  exact ⟨fun ⟨l, hl, r, hr, h⟩ => ⟨l, r, hl, hr, h.symm⟩,
    fun ⟨l, r, hl, hr, h⟩ => ⟨l, hl, r, hr, h.symm⟩⟩

/-- If a list of trees has a layout, so has each tree of it. -/
theorem exists_fragment_of_fragmentAll {trees : List Tree} (h : fragmentAll next trees = .ok code) :
    ∀ t ∈ trees, ∃ next code, t.fragment next = .ok code := by
  induction trees generalizing next code with
  | nil => simp
  | cons tree rest ih =>
    obtain ⟨first, others, hfirst, hothers, -⟩ := (fragmentAll_cons_ok tree rest).1 h
    intro t ht
    rcases List.mem_cons.1 ht with rfl | ht
    · exact ⟨_, _, hfirst⟩
    · exact ih hothers t ht

/-- Only core trees have a layout. -/
theorem core_of_fragment {tree : Tree} (h : tree.fragment next = .ok code) : Core tree := by
  induction tree using children_induction generalizing next code with
  | node label children ih =>
    rw [fragment.eq_def] at h
    split at h
    case h_1 a heq =>
      cases heq
      exact .atom a
    case h_3 op left right heq =>
      cases heq
      obtain ⟨_, _, hleft, hright, -⟩ := (fragment_binary_ok op left right).1 h
      exact .binary op (ih _ (by simp) hleft) (ih _ (by simp) hright)
    case h_5 op operand heq =>
      cases heq
      obtain ⟨_, hoperand, -⟩ := (fragment_unary_ok op operand).1 h
      exact .unary op (ih _ (by simp) hoperand)
    case h_7 binder body heq =>
      cases heq
      obtain ⟨params, _, hparams, -, hbody, -⟩ := (fragment_lambda_ok binder body).1 h
      exact .lambda hparams (ih _ (by simp) hbody)
    case h_9 condition thenTree elseTree heq =>
      cases heq
      obtain ⟨_, _, _, -, hthen, -, helse, hcondition, -⟩ :=
        (fragment_conditional_ok condition thenTree elseTree).1 h
      exact .conditional (ih _ (by simp) hcondition) (ih _ (by simp) hthen)
        (ih _ (by simp) helse)
    case h_11 components heq =>
      cases heq
      obtain ⟨_, hparts, -⟩ := (fragment_tau_ok children).1 h
      refine .tau fun t ht => ?_
      obtain ⟨_, _, hcode⟩ := exists_fragment_of_fragmentAll hparts t ht
      exact ih t ht hcode
    case h_12 function argument heq =>
      cases heq
      obtain ⟨_, _, hfunction, hargument, -⟩ := (fragment_gamma_ok function argument).1 h
      exact .gamma (ih _ (by simp) hfunction) (ih _ (by simp) hargument)
    all_goals cases h

end Tree

end EagerLambda
