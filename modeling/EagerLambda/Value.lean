import EagerLambda.Builtin
import EagerLambda.Handle
import EagerLambda.Integer

/-!
# Values

What expressions denote. A function is a body together with the environment it was made in. The
environment is given by handle. What stands for the body is left open, since values are computed
without looking at it; unless said otherwise it is a handle too, and values hold no code and no
environments.

## Main definitions

- `Closure` — a function made by a program
- `Value` — all values, with decidable equality
- `Value.typeName`, `Value.isFunction` — the kind of a value
-/

namespace EagerLambda

/-- A function made by a program: its body, the names it binds, and the environment it was made
in. -/
structure Closure (Code : Type := ControlId) where
  body : Code
  params : List Name
  env : EnvId
  deriving DecidableEq, Repr, Inhabited

/-- A value, whose functions have bodies given by `Code`. -/
inductive Value (Code : Type := ControlId)
  | integer (value : Integer)
  | truth (value : Bool)
  | string (value : String)
  /-- Components are counted from one; the tuple without components is `nil`. -/
  | tuple (components : List (Value Code))
  | dummy
  | closure (closure : Closure Code)
  /-- A function that gets itself as its first argument. -/
  | eta (closure : Closure Code)
  /-- The fixed-point combinator. -/
  | fixpoint
  | builtin (builtin : Builtin)
  /-- A builtin that has received some of its arguments. -/
  | partialApp (builtin : Builtin) (received : List (Value Code))
  deriving Repr, Inhabited

namespace Value

variable {Code : Type}

/-- The tuple without components. -/
def nil : Value Code := tuple []

/-- Whether a value can be applied as a function. -/
def isFunction : Value Code → Bool
  | closure _ => true
  | eta _ => true
  | fixpoint => true
  | builtin _ => true
  | partialApp .. => true
  | _ => false

/-- What messages call the kind of a value. -/
def typeName : Value Code → String
  | integer _ => "integer"
  | truth _ => "truthvalue"
  | string _ => "string"
  | tuple _ => "tuple"
  | dummy => "dummy"
  | closure _ => "function"
  | eta _ => "recursive function"
  | fixpoint => "fixed-point combinator"
  | builtin _ => "builtin function"
  | partialApp .. => "builtin function"

-- ════════════════════════════════════════════════════════════════════════
-- Equality
-- ════════════════════════════════════════════════════════════════════════

variable [DecidableEq Code]

mutual

/-- Whether two values are the same. -/
def same : Value Code → Value Code → Bool
  | integer a, integer b => decide (a = b)
  | truth a, truth b => decide (a = b)
  | string a, string b => decide (a = b)
  | tuple as, tuple bs => sameAll as bs
  | dummy, dummy => true
  | closure c, closure d => decide (c = d)
  | eta c, eta d => decide (c = d)
  | fixpoint, fixpoint => true
  | builtin b, builtin c => decide (b = c)
  | partialApp b as, partialApp c bs => decide (b = c) && sameAll as bs
  | _, _ => false

/-- Whether two lists of values are the same. -/
def sameAll : List (Value Code) → List (Value Code) → Bool
  | [], [] => true
  | a :: as, b :: bs => same a b && sameAll as bs
  | _, _ => false

end

mutual

theorem same_iff : ∀ {v w : Value Code}, same v w = true ↔ v = w
  | integer _, w => by cases w <;> simp [same]
  | truth _, w => by cases w <;> simp [same]
  | string _, w => by cases w <;> simp [same]
  | tuple _, w => by cases w <;> simp [same, sameAll_iff]
  | dummy, w => by cases w <;> simp [same]
  | closure _, w => by cases w <;> simp [same]
  | eta _, w => by cases w <;> simp [same]
  | fixpoint, w => by cases w <;> simp [same]
  | builtin _, w => by cases w <;> simp [same]
  | partialApp _ _, w => by cases w <;> simp [same, sameAll_iff]

theorem sameAll_iff : ∀ {vs ws : List (Value Code)}, sameAll vs ws = true ↔ vs = ws
  | [], [] => by simp [sameAll]
  | [], _ :: _ => by simp [sameAll]
  | _ :: _, [] => by simp [sameAll]
  | v :: vs, w :: ws => by simp [sameAll, same_iff, sameAll_iff]

end

instance : DecidableEq (Value Code) := fun _ _ => decidable_of_iff _ same_iff

end Value

end EagerLambda
