/-!
# Integers of 64 bits

Integers are signed 64-bit numbers. Arithmetic is exact: every operation is carried out on the
integers themselves, and a result that does not fit is refused instead of wrapped.

## Main definitions

- `Integer.ofInt?` — a whole number as a 64-bit integer, if it fits
- `Integer.add?`, `sub?`, `mul?`, `div?`, `neg?`, `pow?` — exact arithmetic
-/

namespace EagerLambda

/-- A signed integer of 64 bits. -/
abbrev Integer := Int64

namespace Integer

/-- Whether a whole number lies in the range of a signed 64-bit integer. -/
def Fits (z : Int) : Prop := -0x8000000000000000 ≤ z ∧ z < 0x8000000000000000

instance (z : Int) : Decidable (Fits z) :=
  inferInstanceAs (Decidable (-0x8000000000000000 ≤ z ∧ z < 0x8000000000000000))

/-- The 64-bit integer of this value, unless it is out of range. -/
def ofInt? (z : Int) : Option Integer :=
  if Fits z then some (Int64.ofInt z) else none

/-- The decimal digits, after a minus sign if the integer is negative. -/
def text (n : Integer) : String := toString n.toInt

/-- The exact sum. -/
def add? (a b : Integer) : Option Integer := ofInt? (a.toInt + b.toInt)

/-- The exact difference. -/
def sub? (a b : Integer) : Option Integer := ofInt? (a.toInt - b.toInt)

/-- The exact product. -/
def mul? (a b : Integer) : Option Integer := ofInt? (a.toInt * b.toInt)

/-- The quotient, cut off toward zero. The divisor is not zero. -/
def div? (a b : Integer) : Option Integer := ofInt? (a.toInt.tdiv b.toInt)

/-- The integer with its sign changed. -/
def neg? (a : Integer) : Option Integer := ofInt? (-a.toInt)

/-- Exponents are 32-bit numbers, so they lie below this bound. -/
def exponentLimit : Nat := UInt32.size

/-- The exact power.

The powers of -1, 0 and 1 are known from the parity of the exponent. Any other base leaves the
range by its 64th power, so larger exponents need no multiplication. -/
def pow? (base : Integer) (exponent : Nat) : Option Integer :=
  if exponent < 64 then ofInt? (base.toInt.pow exponent)
  else if base.toInt = 0 ∨ base.toInt = 1 then some base
  else if base.toInt = -1 then some (if exponent % 2 = 0 then 1 else -1)
  else none

end Integer

end EagerLambda
