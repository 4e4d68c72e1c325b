import ProtoScript.Number.Binary64
/-!
# Comparison and powers

Order and sameness of numbers where not-a-number takes part, and the power function.
-/

namespace ProtoScript.Number

/-- Whether `x < y`; undecided if one of them is not a number. -/
def lessThan? (x y : Float) : Option Bool :=
  if x.isNaN || y.isNaN then none else some (x < y)

def isNegative (x : Float) : Bool := Binary64.signBit ≤ x.toBits.toNat

/-- Whether two numbers cannot be told apart: not-a-number is the same as itself, and the two zeros
differ. -/
def sameValue (x y : Float) : Bool :=
  if x.isNaN && y.isNaN then true
  else if x == 0 && y == 0 then isNegative x == isNegative y
  else x == y

/-- The power.  It is not a number if the exponent is not, or if the exponent is infinite and the
base is one or minus one. -/
def power (base exponent : Float) : Float :=
  if exponent.isNaN || (base.abs == 1 && exponent.isInf) then 0 / 0 else base.pow exponent

end ProtoScript.Number
