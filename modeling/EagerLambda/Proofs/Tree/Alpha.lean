import EagerLambda.Proofs.Environment.Pairing
import EagerLambda.Proofs.Tree.Core

/-!
# Trees that bind different names

Two core trees are the same up to the names they bind if an identifier of one is bound in the same
place as the identifier that stands for it in the other.

## Main definitions

- `Tree.Alpha` — two core trees are the same up to the names they bind

## Main statements

- `Tree.alpha_gamma_iff` and its like — trees are the same up to names if their parts are
-/

namespace EagerLambda

namespace Tree

/-- The core trees are the same up to the names they bind. Around them the names in `pairing` are
bound. -/
inductive Alpha (naming : Naming) : Pairing → Tree → Tree → Prop
  | identifier {pairing : Pairing} {x y : Name} : pairing.Relates naming x y →
      Alpha naming pairing (.identifier x) (.identifier y)
  | constant {pairing : Pairing} {a : Atom} : (∀ x, a ≠ .identifier x) →
      Alpha naming pairing (leaf a) (leaf a)
  | binary {pairing : Pairing} (op : BinaryOp) {left right left' right' : Tree} :
      Alpha naming pairing left left' → Alpha naming pairing right right' →
      Alpha naming pairing (node (.binary op) [left, right]) (node (.binary op) [left', right'])
  | unary {pairing : Pairing} (op : UnaryOp) {operand operand' : Tree} :
      Alpha naming pairing operand operand' →
      Alpha naming pairing (node (.unary op) [operand]) (node (.unary op) [operand'])
  | lambda {pairing : Pairing} {binder body binder' body' : Tree} {xs ys : List Name} :
      binder.boundNames = .ok xs → binder'.boundNames = .ok ys → List.Forall₂ naming.bound xs ys →
      Alpha naming (pairing.bind xs ys) body body' →
      Alpha naming pairing (Tree.lambda binder body) (Tree.lambda binder' body')
  | conditional {pairing : Pairing}
      {condition thenTree elseTree condition' thenTree' elseTree' : Tree} :
      Alpha naming pairing condition condition' → Alpha naming pairing thenTree thenTree' →
      Alpha naming pairing elseTree elseTree' →
      Alpha naming pairing (of .conditional [condition, thenTree, elseTree])
        (of .conditional [condition', thenTree', elseTree'])
  | tau {pairing : Pairing} {components components' : List Tree} :
      components.length = components'.length →
      (∀ t t', (t, t') ∈ components.zip components' → Alpha naming pairing t t') →
      Alpha naming pairing (of .tau components) (of .tau components')
  | gamma {pairing : Pairing} {function argument function' argument' : Tree} :
      Alpha naming pairing function function' → Alpha naming pairing argument argument' →
      Alpha naming pairing (apply function argument) (apply function' argument')

variable {naming : Naming} {pairing : Pairing}

theorem alpha_identifier_iff {x y : Name} :
    Alpha naming pairing (.identifier x) (.identifier y) ↔ pairing.Relates naming x y := by
  constructor
  · intro h
    generalize hx : Tree.identifier x = t at h
    generalize hy : Tree.identifier y = u at h
    cases h with
    | identifier hxy =>
      cases hx
      cases hy
      exact hxy
    | constant ha =>
      cases hx
      exact absurd rfl (ha x)
    | _ => cases hx
  · exact .identifier

theorem alpha_binary_iff {op : BinaryOp} {left right left' right' : Tree} :
    Alpha naming pairing (node (.binary op) [left, right]) (node (.binary op) [left', right']) ↔
      Alpha naming pairing left left' ∧ Alpha naming pairing right right' := by
  constructor
  · intro h
    cases h with
    | binary _ hleft hright => exact ⟨hleft, hright⟩
  · exact fun ⟨hleft, hright⟩ => .binary op hleft hright

theorem alpha_unary_iff {op : UnaryOp} {operand operand' : Tree} :
    Alpha naming pairing (node (.unary op) [operand]) (node (.unary op) [operand']) ↔
      Alpha naming pairing operand operand' := by
  constructor
  · intro h
    cases h with
    | unary _ hoperand => exact hoperand
  · exact .unary op

theorem alpha_gamma_iff {function argument function' argument' : Tree} :
    Alpha naming pairing (apply function argument) (apply function' argument') ↔
      Alpha naming pairing function function' ∧ Alpha naming pairing argument argument' := by
  constructor
  · intro h
    cases h with
    | gamma hfunction hargument => exact ⟨hfunction, hargument⟩
  · exact fun ⟨hfunction, hargument⟩ => .gamma hfunction hargument

theorem alpha_conditional_iff
    {condition thenTree elseTree condition' thenTree' elseTree' : Tree} :
    Alpha naming pairing (of .conditional [condition, thenTree, elseTree])
        (of .conditional [condition', thenTree', elseTree']) ↔
      Alpha naming pairing condition condition' ∧ Alpha naming pairing thenTree thenTree' ∧
        Alpha naming pairing elseTree elseTree' := by
  constructor
  · intro h
    cases h with
    | conditional hcondition hthen helse => exact ⟨hcondition, hthen, helse⟩
  · exact fun ⟨hcondition, hthen, helse⟩ => .conditional hcondition hthen helse

theorem alpha_tau_iff {components components' : List Tree} :
    Alpha naming pairing (of .tau components) (of .tau components') ↔
      List.Forall₂ (Alpha naming pairing) components components' := by
  rw [List.forall₂_iff_zip]
  constructor
  · intro h
    cases h with
    | tau hlength hzip => exact ⟨hlength, fun {t t'} hmem => hzip t t' hmem⟩
  · exact fun ⟨hlength, hzip⟩ => .tau hlength fun _ _ hmem => hzip hmem

theorem alpha_lambda_iff {binder body binder' body' : Tree} {xs ys : List Name}
    (hxs : binder.boundNames = .ok xs) (hys : binder'.boundNames = .ok ys)
    (hbound : List.Forall₂ naming.bound xs ys) :
    Alpha naming pairing (Tree.lambda binder body) (Tree.lambda binder' body') ↔
      Alpha naming (pairing.bind xs ys) body body' := by
  constructor
  · intro h
    cases h with
    | lambda hxs' hys' _ hbody =>
      cases hxs.symm.trans hxs'
      cases hys.symm.trans hys'
      exact hbody
  · exact .lambda hxs hys hbound

end Tree

end EagerLambda
