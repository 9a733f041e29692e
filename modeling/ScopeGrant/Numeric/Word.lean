/-!
# Integers that fit 64 bits
-/

namespace ScopeGrant

/-- The greatest unsigned integer of 64 bits. -/
def maxUnsigned : Nat := 18446744073709551615

/-- The greatest signed integer of 64 bits. -/
def maxSigned : Int := 9223372036854775807

/-- The least signed integer of 64 bits. -/
def minSigned : Int := -9223372036854775808

/-- An integer, if it fits 64 bits with a sign. -/
def signed? (n : Int) : Option Int :=
  if minSigned ≤ n ∧ n ≤ maxSigned then some n else none

end ScopeGrant
