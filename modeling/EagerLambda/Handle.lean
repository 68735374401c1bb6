/-!
# Handles

Names, control structures and environments are referred to by number. Each kind of number has a
type of its own, so that a name is never taken for an environment.

## Main definitions

- `Name` — an identifier, by its position in a table of names
- `ControlId` — a control structure, by its position in a control table
- `EnvId` — an environment, by the order in which environments were opened
- `handleLimit` — how many handles of one kind there can be
-/

namespace EagerLambda

/-- Handles are 32-bit numbers, so there are at most this many of each kind. -/
def handleLimit : Nat := UInt32.size

-- ════════════════════════════════════════════════════════════════════════
-- Names
-- ════════════════════════════════════════════════════════════════════════

/-- An identifier, given by its position in a table of names. -/
structure Name where
  index : Nat
  deriving DecidableEq, Repr, Inhabited

namespace Name

/-- The texts that every table of names starts with, in order of their handles. -/
def reservedTexts : List String :=
  ["", "Print", "print", "nil", "Y", "Conc", "Stem", "Stern", "Isinteger", "Isstring",
    "Istruthvalue", "Isfunction", "Istuple", "Isdummy", "Order", "Null", "ItoS"]

/-- The empty identifier. -/
def empty : Name := ⟨0⟩

/-- The identifier `Print`. -/
def printUpper : Name := ⟨1⟩

/-- The identifier `print`. -/
def printLower : Name := ⟨2⟩

/-- The identifier `nil`. -/
def nil : Name := ⟨3⟩

/-- The identifier `Y`, through which recursive definitions reach the fixed-point combinator. -/
def fixpoint : Name := ⟨4⟩

/-- The identifier `Conc`. -/
def conc : Name := ⟨5⟩

/-- The identifier `Stem`. -/
def stem : Name := ⟨6⟩

/-- The identifier `Stern`. -/
def stern : Name := ⟨7⟩

/-- The identifier `Isinteger`. -/
def isInteger : Name := ⟨8⟩

/-- The identifier `Isstring`. -/
def isString : Name := ⟨9⟩

/-- The identifier `Istruthvalue`. -/
def isTruthValue : Name := ⟨10⟩

/-- The identifier `Isfunction`. -/
def isFunction : Name := ⟨11⟩

/-- The identifier `Istuple`. -/
def isTuple : Name := ⟨12⟩

/-- The identifier `Isdummy`. -/
def isDummy : Name := ⟨13⟩

/-- The identifier `Order`. -/
def order : Name := ⟨14⟩

/-- The identifier `Null`. -/
def null : Name := ⟨15⟩

/-- The identifier `ItoS`. -/
def itos : Name := ⟨16⟩

end Name

-- ════════════════════════════════════════════════════════════════════════
-- Control structures and environments
-- ════════════════════════════════════════════════════════════════════════

/-- A control structure, given by its position in a control table. -/
structure ControlId where
  index : Nat
  deriving DecidableEq, Repr, Inhabited

namespace ControlId

/-- The control structure a program starts in. -/
def entry : ControlId := ⟨0⟩

/-- The written form `δn`. -/
def text (id : ControlId) : String := s!"δ{id.index}"

end ControlId

/-- An environment, given by the order in which environments were opened. -/
structure EnvId where
  index : Nat
  deriving DecidableEq, Repr, Inhabited

namespace EnvId

/-- The outermost environment, which holds the primitives. -/
def root : EnvId := ⟨0⟩

/-- The written form `en`. -/
def text (id : EnvId) : String := s!"e{id.index}"

end EnvId

end EagerLambda
