import EagerLambda.Builtin.Apply
import EagerLambda.Machine.Step
import EagerLambda.Proofs.Value.Relation

/-!
# Operations on related values

Operators, builtins and selection from tuples answer related values for related operands, and the
same ordinary error where they fail: none of them looks into a function.

## Main definitions

- `Error.Ordinary` — an error that a program brings about
- `Agree` — two results are related values or the same ordinary error

## Main statements

- `BinaryOp.apply_agree`, `UnaryOp.apply_agree`, `Builtin.apply_agree`
- `Machine.State.component?_rel` — selection from related tuples
-/

namespace EagerLambda

/-- The errors that are the doing of the program that is executed, or of its budget. The others
say that something is wrong with the tree, with its control table or with the machine. -/
def Error.Ordinary : Error → Prop
  | unboundVariable _ => True
  | typeMismatch .. => True
  | divisionByZero => True
  | integerOverflow _ => True
  | indexOutOfRange .. => True
  | arityMismatch .. => True
  | budgetExhausted _ => True
  | _ => False

/-- Two results are values that `A` relates, or the same ordinary error. -/
inductive Agree {α β : Type} (A : α → β → Prop) : Except Error α → Except Error β → Prop
  | ok {a : α} {b : β} : A a b → Agree A (.ok a) (.ok b)
  | error (e : Error) : e.Ordinary → Agree A (.error e) (.error e)

namespace Agree

variable {α β γ δ : Type} {A : α → β → Prop} {B : γ → δ → Prop}

/-- Results that agree still agree after a further computation that keeps agreement. -/
theorem bind {r : Except Error α} {s : Except Error β} {f : α → Except Error γ}
    {g : β → Except Error δ} (h : Agree A r s) (hfg : ∀ a b, A a b → Agree B (f a) (g b)) :
    Agree B (r >>= f) (s >>= g) := by
  cases h with
  | ok hab => exact hfg _ _ hab
  | error e he => exact .error e he

end Agree

variable {Code Code' : Type} {R : Closure Code → Closure Code' → Prop}

open Value (Related)

theorem integerResult_agree (operation : String) (result : Option Integer) :
    Agree (Related R) (integerResult operation result) (integerResult operation result) := by
  cases result with
  | none => exact .error _ trivial
  | some n => exact .ok (.integer n)

theorem power_agree (base exponent : Integer) :
    Agree (Related R) (power base exponent) (power base exponent) := by
  rw [power, power]
  split
  · exact integerResult_agree _ _
  · exact .error _ trivial

namespace BinaryOp

/-- An operator takes the same integers whatever functions are, and answers the same for them. -/
theorem onIntegers?_rel (op : BinaryOp) (a b : Integer) :
    Option.Rel (Agree (Related R)) (op.onIntegers? a b) (op.onIntegers? a b) := by
  cases op with
  | add | sub | mul => exact .some (integerResult_agree _ _)
  | div =>
    rw [onIntegers?, onIntegers?]
    split
    · exact .some (.error _ trivial)
    · exact .some (integerResult_agree _ _)
  | pow => exact .some (power_agree a b)
  | eq | ne | gr | ge | ls | le => exact .some (.ok (.truth _))
  | or | and | aug => exact .none

theorem truths_rel (result : Option Bool) :
    Option.Rel (Agree (Related R)) (result.map fun t => .ok (.truth t))
      (result.map fun t => .ok (.truth t)) := by
  cases result with
  | none => exact .none
  | some t => exact .some (.ok (.truth t))

theorem onSameKind?_rel (op : BinaryOp) {v w : Value Code} {v' w' : Value Code'}
    (hv : Related R v v') (hw : Related R w w') :
    Option.Rel (Agree (Related R)) (op.onSameKind? v w) (op.onSameKind? v' w') := by
  cases hv with
  | integer a =>
    cases hw with
    | integer b => exact op.onIntegers?_rel a b
    | _ => exact .none
  | truth a =>
    cases hw with
    | truth b => exact truths_rel (op.onTruths? a b)
    | _ => exact .none
  | string a =>
    cases hw with
    | string b => exact truths_rel (op.onStrings? a b)
    | _ => exact .none
  | _ => cases hw <;> exact .none

theorem augment_agree {v w : Value Code} {v' w' : Value Code'} (hv : Related R v v')
    (hw : Related R w w') : Agree (Related R) (augment v w) (augment v' w') := by
  cases hv with
  | tuple hvs => exact .ok (.tuple (List.rel_append hvs (.cons hw .nil)))
  | _ => exact .error _ trivial

/-- A binary operator on related operands answers related values or the same error. -/
theorem apply_agree (op : BinaryOp) {v w : Value Code} {v' w' : Value Code'}
    (hv : Related R v v') (hw : Related R w w') :
    Agree (Related R) (op.apply v w) (op.apply v' w') := by
  rw [apply, apply]
  split
  · exact augment_agree hv hw
  · have hmismatch : op.mismatch v w = op.mismatch v' w' := by
      rw [mismatch, mismatch, hv.typeName_eq, hw.typeName_eq]
    have hrel := op.onSameKind?_rel hv hw
    rw [hmismatch]
    revert hrel
    generalize op.onSameKind? v w = r
    generalize op.onSameKind? v' w' = s
    intro hrel
    cases hrel with
    | none => exact .error _ trivial
    | some hagree => exact hagree

end BinaryOp

/-- A unary operator on related operands answers related values or the same error. -/
theorem UnaryOp.apply_agree (op : UnaryOp) {v : Value Code} {v' : Value Code'}
    (hv : Related R v v') : Agree (Related R) (op.apply v) (op.apply v') := by
  cases op with
  | not =>
    cases hv with
    | truth b => exact .ok (.truth _)
    | _ => exact .error _ trivial
  | neg =>
    cases hv with
    | integer n => exact integerResult_agree _ _
    | _ => exact .error _ trivial
  | print => exact .ok hv

namespace Builtin

theorem join_agree {vs : List (Value Code)} {vs' : List (Value Code')} {w : Value Code}
    {w' : Value Code'} (hvs : List.Forall₂ (Related R) vs vs') (hw : Related R w w') :
    Agree (Related R) (join vs w) (join vs' w') := by
  cases hvs with
  | nil => exact .error _ trivial
  | cons hv _ =>
    cases hv with
    | string a =>
      cases hw with
      | string b => exact .ok (.string _)
      | _ => exact .error _ trivial
    | _ => exact .error _ trivial

theorem string?_agree {v : Value Code} {v' : Value Code'} (hv : Related R v v') :
    Agree Eq v.string? v'.string? := by
  cases hv with
  | string s => exact .ok rfl
  | _ => exact .error _ trivial

theorem components?_agree {v : Value Code} {v' : Value Code'} (hv : Related R v v') :
    Agree (List.Forall₂ (Related R)) v.components? v'.components? := by
  cases hv with
  | tuple hvs => exact .ok hvs
  | _ => exact .error _ trivial

theorem compute_agree (b : Builtin) {vs : List (Value Code)} {vs' : List (Value Code')}
    {w : Value Code} {w' : Value Code'} (hvs : List.Forall₂ (Related R) vs vs')
    (hw : Related R w w') : Agree (Related R) (b.compute vs w) (b.compute vs' w') := by
  cases b with
  | print => exact .ok hw
  | conc => exact join_agree hvs hw
  | stem | stern =>
    refine (string?_agree hw).bind fun s t hst => ?_
    rw [hst]
    exact .ok (.string _)
  | isInteger | isString | isTruthValue | isTuple | isDummy => cases hw <;> exact .ok (.truth _)
  | isFunction =>
    rw [compute, compute, hw.isFunction_eq]
    exact .ok (.truth _)
  | order =>
    refine (components?_agree hw).bind fun s t hst => ?_
    rw [hst.length_eq]
    exact integerResult_agree _ _
  | null =>
    refine (components?_agree hw).bind fun s t hst => ?_
    have hempty : s.isEmpty = t.isEmpty := by cases hst <;> rfl
    rw [hempty]
    exact .ok (.truth _)
  | itos =>
    cases hw with
    | integer n => exact .ok (.string _)
    | _ => exact .error _ trivial

/-- A builtin applied to related arguments answers related values or the same error. -/
theorem apply_agree (b : Builtin) {vs : List (Value Code)} {vs' : List (Value Code')}
    {w : Value Code} {w' : Value Code'} (hvs : List.Forall₂ (Related R) vs vs')
    (hw : Related R w w') : Agree (Related R) (b.apply vs w) (b.apply vs' w') := by
  rw [apply, apply, hvs.length_eq]
  split
  · exact .ok (.partialApp b (List.rel_append hvs (.cons hw .nil)))
  · exact b.compute_agree hvs hw

/-- Applied to related arguments, a builtin shows related values. -/
theorem shown_forall₂ (b : Builtin) {w : Value Code} {w' : Value Code'} (hw : Related R w w') :
    List.Forall₂ (Related R) (b.shown w) (b.shown w') := by
  cases b with
  | print => exact .cons hw .nil
  | _ => exact .nil

end Builtin

/-- Related lists have related elements at every position. -/
theorem forall₂_getElem? {α β : Type} {A : α → β → Prop} {xs : List α} {ys : List β}
    (h : List.Forall₂ A xs ys) (i : Nat) : Option.Rel A xs[i]? ys[i]? := by
  induction h generalizing i with
  | nil => simp
  | cons hxy _ ih =>
    cases i with
    | zero => simpa using Option.Rel.some hxy
    | succ i => simpa using ih i

/-- Related tuples have related components. -/
theorem Machine.State.component?_rel {vs : List (Value Code)} {vs' : List (Value Code')}
    (hvs : List.Forall₂ (Related R) vs vs') (index : Integer) :
    Option.Rel (Related R) (component? vs index) (component? vs' index) := by
  rw [component?, component?]
  split
  · exact forall₂_getElem? hvs _
  · exact .none

end EagerLambda
