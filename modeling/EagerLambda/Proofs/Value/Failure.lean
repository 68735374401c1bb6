import EagerLambda.Builtin.Apply
import EagerLambda.Operator.Apply

/-!
# How operations fail

An operator or a builtin fails because of its operands only: they are of the wrong kind, too large
or out of range. That `Conc` misses its first string is not among the ways to fail, since it waits
for a second argument before it computes.

## Main definitions

- `FailsWith` — a computation fails with certain errors only
- `Error.Misapplies` — a value was applied that cannot be applied
- `Error.unreceived` — `Conc` has computed without a first string
- `Misfit` — an operand is of another kind than the one asked for
- `Error.Spoils` — any other error but the end of the budget
- `Error.OfOperands` — the errors of operators and builtins

## Main statements

- `BinaryOp.apply_fails`, `UnaryOp.apply_fails`, `Builtin.apply_fails`
-/

namespace EagerLambda

/-- If the computation fails, it fails with such an error. -/
def FailsWith {α : Type} (P : Error → Prop) (result : Except Error α) : Prop :=
  ∀ error, result = .error error → P error

namespace FailsWith

variable {α β : Type} {P : Error → Prop}

theorem ok (a : α) : FailsWith P (.ok a) := nofun

theorem error {e : Error} (h : P e) : FailsWith P (.error e : Except Error α) := by
  rintro _ ⟨⟩
  exact h

theorem mono {Q : Error → Prop} {result : Except Error α} (h : FailsWith P result)
    (himp : ∀ e, P e → Q e) : FailsWith Q result := fun e he => himp e (h e he)

theorem bind {result : Except Error α} {next : α → Except Error β} (h : FailsWith P result)
    (hnext : ∀ a, FailsWith P (next a)) : FailsWith P (result >>= next) := by
  cases result with
  | ok a => exact hnext a
  | error e => exact .error (h e rfl)

end FailsWith

/-- The error of applying a value that is neither a function nor a tuple with components. -/
def Error.Misapplies : Error → Prop
  | .typeMismatch expected _ => expected = "a function or tuple"
  | _ => False

/-- The error of `Conc` when it computes without a first string. -/
def Error.unreceived : Error := .typeMismatch "string" "nothing"

/-- An operand is of another kind than the one asked for. It is not an operand that was to be
applied, and there is one. -/
structure Misfit (expected got : String) : Prop where
  applies : expected ≠ "a function or tuple"
  received : Error.typeMismatch expected got ≠ .unreceived

/-- The error is about the operands of an operation. -/
def Error.OfOperands : Error → Prop
  | .typeMismatch expected got => Misfit expected got
  | .divisionByZero => True
  | .integerOverflow _ => True
  | .indexOutOfRange .. => True
  | .arityMismatch .. => True
  | _ => False

/-- The error is neither that of applying a value that cannot be applied nor that of a budget, nor
does `Conc` miss a string. -/
def Error.Spoils : Error → Prop
  | .typeMismatch expected got => Misfit expected got
  | .budgetExhausted _ => False
  | _ => True

theorem Error.Spoils.not_misapplies {error : Error} (h : error.Spoils) : ¬ error.Misapplies := by
  cases error with
  | typeMismatch expected got => exact h.applies
  | _ => exact not_false

theorem Error.Spoils.ne_unreceived {error : Error} (h : error.Spoils) : error ≠ .unreceived := by
  rintro rfl
  exact h.received rfl

theorem Error.OfOperands.spoils {error : Error} (h : error.OfOperands) : error.Spoils := by
  cases error with
  | typeMismatch expected got => exact h
  | budgetExhausted budget => exact h.elim
  | _ => trivial

variable {Code : Type}

/-- No value is called nothing. -/
theorem misfit_typeName {expected : String} (v : Value Code)
    (h : expected ≠ "a function or tuple") : Misfit expected v.typeName := by
  refine ⟨h, fun heq => ?_⟩
  have hname : v.typeName = "nothing" := (Error.typeMismatch.inj heq).2
  cases v <;> simp [Value.typeName] at hname

theorem misfit_of_ne {expected : String} (got : String) (h : expected ≠ "a function or tuple")
    (hstring : expected ≠ "string") : Misfit expected got :=
  ⟨h, fun heq => hstring (Error.typeMismatch.inj heq).1⟩

theorem BinaryOp.misfit (op : BinaryOp) (got : String) : Misfit op.expected got :=
  misfit_of_ne got (by cases op <;> decide) (by cases op <;> decide)

theorem integerResult_fails (operation : String) (result : Option Integer) :
    FailsWith Error.OfOperands (integerResult operation result : Except Error (Value Code)) := by
  cases result with
  | none => exact .error trivial
  | some n => exact .ok _

namespace BinaryOp

theorem onIntegers?_fails {op : BinaryOp} {a b : Integer} {result : Except Error (Value Code)}
    (h : op.onIntegers? a b = some result) : FailsWith Error.OfOperands result := by
  cases op with
  | add | sub | mul =>
    cases h
    exact integerResult_fails _ _
  | div =>
    cases h
    split
    · exact .error trivial
    · exact integerResult_fails _ _
  | pow =>
    cases h
    rw [power]
    split
    · exact integerResult_fails _ _
    · exact .error (misfit_of_ne _ (by decide) (by decide))
  | eq | ne | gr | ge | ls | le =>
    cases h
    exact .ok _
  | or | and | aug => cases h

theorem onSameKind?_fails {op : BinaryOp} {left right : Value Code}
    {result : Except Error (Value Code)} (h : op.onSameKind? left right = some result) :
    FailsWith Error.OfOperands result := by
  unfold onSameKind? at h
  split at h
  · exact onIntegers?_fails h
  · obtain ⟨t, -, rfl⟩ := Option.map_eq_some_iff.1 h
    exact .ok _
  · obtain ⟨t, -, rfl⟩ := Option.map_eq_some_iff.1 h
    exact .ok _
  · cases h

/-- A binary operator fails because of its operands only. -/
theorem apply_fails (op : BinaryOp) (left right : Value Code) :
    FailsWith Error.OfOperands (op.apply left right) := by
  rw [apply]
  split
  · unfold augment
    split
    · exact .ok _
    · exact .error (misfit_typeName _ (by decide))
  · cases h : op.onSameKind? left right with
    | none => exact .error (op.misfit _)
    | some result => exact onSameKind?_fails h

end BinaryOp

/-- A unary operator fails because of its operand only. -/
theorem UnaryOp.apply_fails (op : UnaryOp) (operand : Value Code) :
    FailsWith Error.OfOperands (op.apply operand) := by
  unfold UnaryOp.apply
  split
  · exact .ok _
  · exact .error (misfit_typeName _ (by decide))
  · exact integerResult_fails _ _
  · exact .error (misfit_typeName _ (by decide))
  · exact .ok _

namespace Value

theorem string?_fails (v : Value Code) : FailsWith Error.OfOperands v.string? := by
  unfold string?
  split
  · exact .ok _
  · exact .error (misfit_typeName _ (by decide))

theorem components?_fails (v : Value Code) : FailsWith Error.OfOperands v.components? := by
  unfold components?
  split
  · exact .ok _
  · exact .error (misfit_typeName _ (by decide))

end Value

namespace Builtin

theorem join_fails {received : List (Value Code)} (h : received ≠ []) (argument : Value Code) :
    FailsWith Error.OfOperands (join received argument) := by
  unfold join
  split
  · exact .ok _
  · exact .error (misfit_typeName _ (by decide))
  · exact .error (misfit_typeName _ (by decide))
  · exact absurd rfl h

theorem compute_fails (builtin : Builtin) {received : List (Value Code)} (argument : Value Code)
    (hreceived : builtin = .conc → received ≠ []) :
    FailsWith Error.OfOperands (builtin.compute received argument) := by
  cases builtin with
  | conc => exact join_fails (hreceived rfl) argument
  | stem | stern => exact argument.string?_fails.bind fun _ => .ok _
  | order => exact argument.components?_fails.bind fun _ => integerResult_fails _ _
  | null => exact argument.components?_fails.bind fun _ => .ok _
  | itos =>
    cases argument with
    | integer n => exact .ok _
    | _ => exact .error (misfit_typeName _ (by decide))
  | print | isInteger | isString | isTruthValue | isFunction | isTuple | isDummy => exact .ok _

/-- A builtin fails because of its argument only. -/
theorem apply_fails (builtin : Builtin) (received : List (Value Code)) (argument : Value Code) :
    FailsWith Error.OfOperands (builtin.apply received argument) := by
  rw [apply]
  split
  · exact .ok _
  · next henough =>
    refine compute_fails builtin argument ?_
    rintro rfl rfl
    exact henough Nat.one_lt_two

end Builtin

end EagerLambda
