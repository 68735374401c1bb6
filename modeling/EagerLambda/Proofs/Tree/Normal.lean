import EagerLambda.Proofs.Tree.Desugar

/-!
# Trees that are desugared already

A tree is desugared already if every construct in it is core and every function has one binder. What
desugaring makes is such a tree, and such a tree is left as it is. What hangs below an atom does not
count, and desugaring does not touch it.

## Main definitions

- `Tree.Everywhere` — a property of all constructs of a tree
- `Tree.Normal` — no construct is left to be expanded
- `Tree.Sugarless` — no construct is there that would be expanded
- `Tree.atoms` — the subtrees of a tree that are labelled with an atom

## Main statements

- `Tree.Normal.desugar_eq` — a tree without constructs to be expanded is left as it is
- `Tree.desugar_normal` — desugaring makes a tree in which nothing is left to be expanded
-/

namespace EagerLambda

namespace Construct

/-- Whether a construct only abbreviates others. -/
def isSugar : Construct → Bool
  | letIn | whereIn | functionForm | simultaneous | within | between | recursive => true
  | lambda | gamma | tau | comma | definition | conditional => false

/-- A construct over this many children is core. -/
def Final (c : Construct) (count : Nat) : Prop := c.isSugar = false ∧ (c = lambda → count = 2)

/-- A construct over this many children is not one that would be expanded. -/
def Kept (c : Construct) (count : Nat) : Prop := c.isSugar = false ∧ (c = lambda → count ≤ 2)

theorem Final.kept {c : Construct} {count : Nat} (h : c.Final count) : c.Kept count :=
  ⟨h.1, fun hc => Nat.le_of_eq (h.2 hc)⟩

/-- A core construct is left as it is. -/
theorem Final.expand_eq {c : Construct} {children : List Tree} (h : c.Final children.length) :
    c.expand children = .ok none := by
  obtain ⟨hsugar, hcount⟩ := h
  cases c with
  | lambda =>
    obtain ⟨first, second, rfl⟩ := List.length_eq_two.1 (hcount rfl)
    rfl
  | gamma | tau | comma | definition | conditional => rfl
  | _ => cases hsugar

/-- What only abbreviates is expanded or refused. -/
theorem expand_ne_none {c : Construct} (hc : c.isSugar = true) (children : List Tree) :
    c.expand children ≠ .ok none := by
  intro h
  cases c with
  | letIn | whereIn | functionForm | simultaneous | within | between | recursive =>
    unfold expand at h
    split at h <;> simp_all [bind_eq_ok]
  | lambda | gamma | tau | comma | definition | conditional => cases hc

/-- A construct that is left as it is is core. -/
theorem final_of_expand {c : Construct} {children : List Tree} (h : c.expand children = .ok none) :
    c.Final children.length := by
  refine ⟨Bool.eq_false_iff.2 fun hc => expand_ne_none hc children h, ?_⟩
  rintro rfl
  rcases children with _ | ⟨first, _ | ⟨second, _ | ⟨third, rest⟩⟩⟩
  case cons.cons.nil => rfl
  all_goals cases h

/-- What abbreviates another tree is one to be expanded. -/
theorem Expands.not_kept {c : Construct} {cores : List Tree} {core : Tree}
    (h : c.Expands cores core) : ¬c.Kept cores.length := by
  cases h <;> simp [Kept, isSugar]

end Construct

namespace Tree

/-- Every construct in a tree satisfies `P`, given its number of children. What hangs below an atom
is no part of the tree. -/
inductive Everywhere (P : Construct → Nat → Prop) : Tree → Prop
  | atom (a : Atom) (children : List Tree) : Everywhere P (node (.atom a) children)
  | binary (op : BinaryOp) {children : List Tree} : (∀ t ∈ children, Everywhere P t) →
      Everywhere P (node (.binary op) children)
  | unary (op : UnaryOp) {children : List Tree} : (∀ t ∈ children, Everywhere P t) →
      Everywhere P (node (.unary op) children)
  | construct {c : Construct} {children : List Tree} : P c children.length →
      (∀ t ∈ children, Everywhere P t) → Everywhere P (node (.construct c) children)

/-- No construct in the tree is left to be expanded: each is core, and every function binds once. -/
abbrev Normal : Tree → Prop := Everywhere Construct.Final

/-- No construct is in the tree that abbreviates others, and no function of several binders. -/
abbrev Sugarless : Tree → Prop := Everywhere Construct.Kept

mutual

/-- The subtrees labelled with an atom. What hangs below one is not looked into. -/
def atoms : Tree → List Tree
  | node (.atom a) children => [node (.atom a) children]
  | node (.binary _) children => atomsAll children
  | node (.unary _) children => atomsAll children
  | node (.construct _) children => atomsAll children

/-- The subtrees labelled with an atom in the trees of a list. -/
def atomsAll : List Tree → List Tree
  | [] => []
  | tree :: rest => tree.atoms ++ atomsAll rest

end

variable {P Q : Construct → Nat → Prop} {tree core : Tree} {trees cores : List Tree}

theorem Everywhere.mono (hPQ : ∀ c count, P c count → Q c count) (h : tree.Everywhere P) :
    tree.Everywhere Q := by
  induction h with
  | atom a children => exact .atom a children
  | binary op _ ih => exact .binary op ih
  | unary op _ ih => exact .unary op ih
  | construct hc _ ih => exact .construct (hPQ _ _ hc) ih

theorem Normal.sugarless (h : tree.Normal) : tree.Sugarless := h.mono fun _ _ hc => hc.kept

theorem everywhere_of_iff {c : Construct} :
    (of c trees).Everywhere P ↔ P c trees.length ∧ ∀ t ∈ trees, t.Everywhere P := by
  constructor
  · intro h
    cases h with
    | construct hc hchildren => exact ⟨hc, hchildren⟩
  · exact fun ⟨hc, hchildren⟩ => .construct hc hchildren

-- ════════════════════════════════════════════════════════════════════════
-- What is made of normal trees is normal
-- ════════════════════════════════════════════════════════════════════════

theorem normal_define {binder value : Tree} :
    (define binder value).Normal ↔ binder.Normal ∧ value.Normal := by
  rw [Normal, define, everywhere_of_iff]
  simp [Construct.Final, Construct.isSugar]

theorem normal_apply {function argument : Tree} :
    (apply function argument).Normal ↔ function.Normal ∧ argument.Normal := by
  rw [Normal, apply, everywhere_of_iff]
  simp [Construct.Final, Construct.isSugar]

theorem normal_lambda {binder body : Tree} :
    (lambda binder body).Normal ↔ binder.Normal ∧ body.Normal := by
  rw [Normal, lambda, everywhere_of_iff]
  simp [Construct.Final, Construct.isSugar]

theorem normal_comma : (of .comma trees).Normal ↔ ∀ t ∈ trees, t.Normal := by
  rw [Normal, everywhere_of_iff]
  simp [Construct.Final, Construct.isSugar]

theorem normal_tau : (of .tau trees).Normal ↔ ∀ t ∈ trees, t.Normal := by
  rw [Normal, everywhere_of_iff]
  simp [Construct.Final, Construct.isSugar]

/-- Nested functions are normal if their binders and their body are. -/
theorem normal_curry {first : Tree} {rest : List Tree} :
    (curry first rest).Normal ↔ first.Normal ∧ ∀ t ∈ rest, t.Normal := by
  induction rest generalizing first with
  | nil => simp [curry]
  | cons second rest ih => rw [curry, normal_lambda, ih, List.forall_mem_cons]

theorem normal_definitions {binders values : List Tree} (h : binders.length = values.length) :
    (∀ t ∈ List.zipWith define binders values, t.Normal) ↔
      (∀ t ∈ binders, t.Normal) ∧ ∀ t ∈ values, t.Normal := by
  induction binders generalizing values with
  | nil =>
    obtain rfl : values = [] := List.length_eq_zero_iff.1 h.symm
    simp
  | cons b bs ih =>
    obtain ⟨v, vs, rfl⟩ := List.exists_cons_of_length_eq_add_one h.symm
    rw [List.zipWith_cons_cons, List.forall_mem_cons, List.forall_mem_cons, List.forall_mem_cons,
      normal_define, ih (Nat.succ.inj h)]
    exact and_and_and_comm

/-- What is abbreviated over normal trees is a normal tree. -/
theorem normal_of_expands {c : Construct} (h : c.Expands cores core)
    (hcores : ∀ t ∈ cores, t.Normal) : core.Normal := by
  cases h with
  | letIn binder value body =>
    obtain ⟨⟨hbinder, hvalue⟩, hbody⟩ := by simpa [normal_define] using hcores
    exact normal_apply.2 ⟨normal_lambda.2 ⟨hbinder, hbody⟩, hvalue⟩
  | whereIn body binder value =>
    obtain ⟨hbody, hbinder, hvalue⟩ := by simpa [normal_define] using hcores
    exact normal_apply.2 ⟨normal_lambda.2 ⟨hbinder, hbody⟩, hvalue⟩
  | functionForm name first second rest =>
    rw [List.forall_mem_cons, List.forall_mem_cons] at hcores
    obtain ⟨hname, hfirst, hrest⟩ := hcores
    rw [List.forall_mem_cons] at hrest
    exact normal_define.2 ⟨hname, normal_lambda.2 ⟨hfirst, normal_curry.2 hrest⟩⟩
  | simultaneous hlength =>
    obtain ⟨hbinders, hvalues⟩ := (normal_definitions hlength).1 hcores
    exact normal_define.2 ⟨normal_comma.2 hbinders, normal_tau.2 hvalues⟩
  | within outerBinder outerValue binder value =>
    obtain ⟨⟨houterBinder, houterValue⟩, hbinder, hvalue⟩ := by
      simpa [normal_define] using hcores
    exact normal_define.2
      ⟨hbinder, normal_apply.2 ⟨normal_lambda.2 ⟨houterBinder, hvalue⟩, houterValue⟩⟩
  | between left function right =>
    obtain ⟨hleft, hfunction, hright⟩ := by simpa using hcores
    exact normal_apply.2 ⟨normal_apply.2 ⟨hfunction, hleft⟩, hright⟩
  | recursive binder value =>
    obtain ⟨hbinder, hvalue⟩ := by simpa [normal_define] using hcores
    exact normal_define.2
      ⟨hbinder, normal_apply.2 ⟨.atom _ [], normal_lambda.2 ⟨hbinder, hvalue⟩⟩⟩
  | lambda first second third rest =>
    rw [List.forall_mem_cons, List.forall_mem_cons] at hcores
    obtain ⟨hfirst, hrest⟩ := hcores
    exact normal_lambda.2 ⟨hfirst, normal_curry.2 hrest⟩

/-- What holds of each tree and its partner holds of all the partners. -/
theorem forall_partner {R : Tree → Tree → Prop} {p : Tree → Prop} (h : List.Forall₂ R trees cores)
    (hp : ∀ t ∈ trees, ∀ u, R t u → p u) : ∀ u ∈ cores, p u := by
  induction h with
  | nil => simp
  | cons hfirst _ ih =>
    rw [List.forall_mem_cons] at hp ⊢
    exact ⟨hp.1 _ hfirst, ih hp.2⟩

/-- Desugaring leaves nothing to be expanded. -/
theorem Desugars.normal (h : tree.Desugars core) : core.Normal := by
  induction tree using children_induction generalizing core with
  | node label children ih =>
    cases label with
    | atom a =>
      rw [desugars_atom h]
      exact .atom a children
    | binary op =>
      obtain ⟨cores, hcores, rfl⟩ := desugars_binary h
      exact .binary op (forall_partner hcores fun t ht _ => ih t ht)
    | unary op =>
      obtain ⟨cores, hcores, rfl⟩ := desugars_unary h
      exact .unary op (forall_partner hcores fun t ht _ => ih t ht)
    | construct c =>
      obtain ⟨cores, hcores, ⟨hexpand, rfl⟩ | hexpands⟩ := desugars_construct h
      · exact .construct (Construct.final_of_expand hexpand)
          (forall_partner hcores fun t ht _ => ih t ht)
      · exact normal_of_expands hexpands (forall_partner hcores fun t ht _ => ih t ht)

-- ════════════════════════════════════════════════════════════════════════
-- Trees that are left as they are
-- ════════════════════════════════════════════════════════════════════════

theorem desugarAll_eq (h : ∀ t ∈ trees, t.desugar = .ok ⟨t, 0⟩) :
    desugarAll trees = .ok (trees, 0) := by
  induction trees with
  | nil => rfl
  | cons tree rest ih =>
    rw [List.forall_mem_cons] at h
    rw [desugarAll, h.1, ih h.2]
    rfl

/-- A tree without constructs to be expanded is left as it is. -/
theorem Normal.desugar_eq (h : tree.Normal) : tree.desugar = .ok ⟨tree, 0⟩ := by
  induction h with
  | atom a children => rfl
  | binary op _ ih =>
    rw [desugar, desugarAll_eq ih]
    rfl
  | unary op _ ih =>
    rw [desugar, desugarAll_eq ih]
    rfl
  | construct hc _ ih =>
    rw [desugar, desugarAll_eq ih]
    exact bind_eq_ok.2 ⟨_, rfl, bind_eq_ok.2 ⟨none, hc.expand_eq, rfl⟩⟩

/-- What holds of each tree that has a partner holds of all trees of a list of such. -/
theorem forall_of_partner {R : Tree → Tree → Prop} {p : Tree → Prop}
    (h : List.Forall₂ R trees cores) (hp : ∀ t ∈ trees, ∀ u, R t u → p t) : ∀ t ∈ trees, p t := by
  induction h with
  | nil => simp
  | cons hfirst _ ih =>
    rw [List.forall_mem_cons] at hp ⊢
    exact ⟨hp.1 _ hfirst, ih hp.2⟩

/-- A tree without abbreviations that can be desugared is normal: no function in it has too few
children. -/
theorem Sugarless.normal (h : tree.Sugarless) (hcore : tree.Desugars core) : tree.Normal := by
  induction h generalizing core with
  | atom a children => exact .atom a children
  | binary op _ ih =>
    obtain ⟨cores, hcores, -⟩ := desugars_binary hcore
    exact .binary op (forall_of_partner hcores fun t ht _ => ih t ht)
  | unary op _ ih =>
    obtain ⟨cores, hcores, -⟩ := desugars_unary hcore
    exact .unary op (forall_of_partner hcores fun t ht _ => ih t ht)
  | construct hc _ ih =>
    obtain ⟨cores, hcores, ⟨hexpand, -⟩ | hexpands⟩ := desugars_construct hcore
    · refine .construct ?_ (forall_of_partner hcores fun t ht _ => ih t ht)
      rw [hcores.length_eq]
      exact Construct.final_of_expand hexpand
    · rw [hcores.length_eq] at hc
      exact absurd hc hexpands.not_kept

-- ════════════════════════════════════════════════════════════════════════
-- What hangs below atoms
-- ════════════════════════════════════════════════════════════════════════

variable {t : Tree}

@[simp]
theorem atoms_of (c : Construct) (children : List Tree) :
    (of c children).atoms = atomsAll children := by
  rw [of, atoms]

@[simp]
theorem atoms_define (binder value : Tree) :
    (define binder value).atoms = binder.atoms ++ value.atoms := by
  simp [define, atomsAll]

@[simp]
theorem atoms_apply (function argument : Tree) :
    (apply function argument).atoms = function.atoms ++ argument.atoms := by
  simp [apply, atomsAll]

@[simp]
theorem atoms_lambda (binder body : Tree) :
    (lambda binder body).atoms = binder.atoms ++ body.atoms := by
  simp [lambda, atomsAll]

@[simp]
theorem atoms_curry (first : Tree) (rest : List Tree) :
    (curry first rest).atoms = first.atoms ++ atomsAll rest := by
  induction rest generalizing first with
  | nil => simp [curry, atomsAll]
  | cons second rest ih => simp [curry, atomsAll, ih]

theorem mem_atomsAll_definitions {binders values : List Tree}
    (h : binders.length = values.length) :
    t ∈ atomsAll (List.zipWith define binders values) ↔
      t ∈ atomsAll binders ∨ t ∈ atomsAll values := by
  induction binders generalizing values with
  | nil =>
    obtain rfl : values = [] := List.length_eq_zero_iff.1 h.symm
    simp [atomsAll]
  | cons b bs ih =>
    obtain ⟨v, vs, rfl⟩ := List.exists_cons_of_length_eq_add_one h.symm
    simp only [List.zipWith_cons_cons, atomsAll, atoms_define, List.mem_append,
      ih (Nat.succ.inj h)]
    exact or_or_or_comm

/-- Of two lists of atoms, the second has all of the first and beside them at most the name of the
fixed-point combinator. -/
def KeepsAtoms (before after : List Tree) : Prop :=
  before ⊆ after ∧ after ⊆ identifier .fixpoint :: before

theorem KeepsAtoms.refl (atoms : List Tree) : KeepsAtoms atoms atoms :=
  ⟨List.Subset.refl _, List.subset_cons_self _ _⟩

theorem KeepsAtoms.append {before after before' after' : List Tree} (h : KeepsAtoms before after)
    (h' : KeepsAtoms before' after') : KeepsAtoms (before ++ before') (after ++ after') := by
  refine ⟨List.append_subset.2 ⟨List.Subset.trans h.1 (List.subset_append_left _ _),
    List.Subset.trans h'.1 (List.subset_append_right _ _)⟩, ?_⟩
  intro t ht
  have hleft := @h.2 t
  have hright := @h'.2 t
  grind

theorem KeepsAtoms.trans {first second third : List Tree} (h : KeepsAtoms first second)
    (h' : KeepsAtoms second third) : KeepsAtoms first third :=
  ⟨List.Subset.trans h.1 h'.1,
    List.Subset.trans h'.2 (List.cons_subset.2 ⟨List.mem_cons_self, h.2⟩)⟩

/-- The atoms of what is abbreviated are those it is made of and, for a recursive definition, the
name of the fixed-point combinator. -/
theorem mem_atoms_of_expands {c : Construct} (h : c.Expands cores core) :
    t ∈ core.atoms ↔ t ∈ atomsAll cores ∨ c = .recursive ∧ t = identifier .fixpoint := by
  cases h with
  | simultaneous hlength =>
    simp [mem_atomsAll_definitions hlength, atomsAll, or_assoc]
  | _ => simp [atomsAll, identifier, leaf, atoms, or_comm, or_left_comm, or_assoc]

theorem keepsAtoms_of_expands {c : Construct} (h : c.Expands cores core) :
    KeepsAtoms (atomsAll cores) core.atoms := by
  refine ⟨fun t ht => (mem_atoms_of_expands h).2 (.inl ht), fun t ht => ?_⟩
  obtain ht | ⟨-, rfl⟩ := (mem_atoms_of_expands h).1 ht
  · exact List.mem_cons_of_mem _ ht
  · exact List.mem_cons_self

theorem keepsAtoms_all {R : Tree → Tree → Prop} (h : List.Forall₂ R trees cores)
    (hR : ∀ t ∈ trees, ∀ u, R t u → KeepsAtoms t.atoms u.atoms) :
    KeepsAtoms (atomsAll trees) (atomsAll cores) := by
  induction h with
  | nil => exact .refl []
  | cons hfirst _ ih =>
    rw [List.forall_mem_cons] at hR
    exact (hR.1 _ hfirst).append (ih hR.2)

/-- Desugaring keeps every atom, with all that hangs below it, and adds no other than the name of
the fixed-point combinator. -/
theorem Desugars.keepsAtoms (h : tree.Desugars core) : KeepsAtoms tree.atoms core.atoms := by
  induction tree using children_induction generalizing core with
  | node label children ih =>
    cases label with
    | atom a =>
      rw [desugars_atom h]
      exact .refl _
    | binary op =>
      obtain ⟨cores, hcores, rfl⟩ := desugars_binary h
      rw [atoms, atoms]
      exact keepsAtoms_all hcores fun t ht _ => ih t ht
    | unary op =>
      obtain ⟨cores, hcores, rfl⟩ := desugars_unary h
      rw [atoms, atoms]
      exact keepsAtoms_all hcores fun t ht _ => ih t ht
    | construct c =>
      obtain ⟨cores, hcores, hcore⟩ := desugars_construct h
      have hkeeps : KeepsAtoms (atomsAll children) (atomsAll cores) :=
        keepsAtoms_all hcores fun t ht _ => ih t ht
      rw [atoms]
      obtain ⟨-, rfl⟩ | hexpands := hcore
      · rwa [atoms_of]
      · exact hkeeps.trans (keepsAtoms_of_expands hexpands)

-- ════════════════════════════════════════════════════════════════════════
-- The normal form
-- ════════════════════════════════════════════════════════════════════════

/-- What desugaring makes of a tree is normal, up to what hangs below atoms, which it keeps.
Desugaring it again succeeds, expands nothing and changes nothing, and it is the tree itself exactly
if that had no abbreviations and no functions of several binders. -/
theorem desugar_normal {result : Desugared} (h : tree.desugar = .ok result) :
    result.tree.Normal ∧ KeepsAtoms tree.atoms result.tree.atoms ∧
      result.tree.desugar = .ok ⟨result.tree, 0⟩ ∧ (result.tree = tree ↔ tree.Sugarless) := by
  have hdesugars : tree.Desugars result.tree := ⟨result.expansions, h⟩
  have hnormal : result.tree.Normal := hdesugars.normal
  refine ⟨hnormal, hdesugars.keepsAtoms, hnormal.desugar_eq, ?_⟩
  constructor
  · intro heq
    rw [← heq]
    exact hnormal.sugarless
  · intro hsugarless
    have hsame := (hsugarless.normal hdesugars).desugar_eq
    rw [Except.ok.inj (h.symm.trans hsame)]

/-- The tree of `let rec f x = @ 1 g x in f` over an atom with a `let` below it. -/
theorem desugar_normal_recursive :
    let function := of .functionForm [identifier ⟨17⟩, identifier ⟨18⟩,
      of .between [leaf (.integer 1), identifier ⟨19⟩, identifier ⟨18⟩]]
    let below := node (.atom (.truth true)) [of .letIn []]
    let tree := of .letIn [of .recursive [function], below]
    ∃ result, tree.desugar = .ok result ∧ result.expansions = 4 ∧ result.tree ≠ tree ∧
      below ∈ result.tree.atoms ∧ result.tree.Normal ∧ KeepsAtoms tree.atoms result.tree.atoms ∧
      result.tree.desugar = .ok ⟨result.tree, 0⟩ ∧ (result.tree = tree ↔ tree.Sugarless) := by
  intro function below tree
  refine ⟨_, rfl, rfl, by decide, ?_, desugar_normal rfl⟩
  decide

end Tree

end EagerLambda
