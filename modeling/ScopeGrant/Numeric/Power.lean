/-!
# Powers with exponents of either sign

A power with an integer exponent is a quotient of natural numbers, `powNum / powDen`, of which one
is the power of a natural number and the other is one.
-/

namespace ScopeGrant

/-- The numerator of a power. -/
def powNum (base : Nat) (exponent : Int) : Nat :=
  Nat.pow base exponent.toNat

/-- The denominator of a power. -/
def powDen (base : Nat) (exponent : Int) : Nat :=
  Nat.pow base (-exponent).toNat

end ScopeGrant
