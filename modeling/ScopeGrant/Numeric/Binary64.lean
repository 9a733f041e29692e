import ScopeGrant.Numeric.Power

/-!
# Binary floating-point numbers of 64 bits

A finite number is a significand below `2 ^ 53` times a power of two, with a sign; zero has one too.
Numbers enter as exact quotients of natural numbers and are rounded once, to the nearest number and
on a tie to the one with an even significand. All arithmetic here is exact arithmetic on natural
numbers and integers followed by that one rounding.
-/

namespace ScopeGrant

/-- A binary floating-point number of 64 bits. -/
inductive Binary64 where
  /-- Not a number. -/
  | nan
  /-- An infinity, with its sign. -/
  | infinite (negative : Bool)
  /-- The number `significand * 2 ^ exponent`, with its sign. -/
  | finite (negative : Bool) (significand : Nat) (exponent : Int)
deriving Repr, DecidableEq, Inhabited

/-- The integer nearest to `num / den`, and of two equally near the even one. -/
def roundDivEven (num den : Nat) : Nat :=
  let quotient := num / den
  let twice := 2 * (num % den)
  if twice < den ∨ (twice = den ∧ quotient % 2 = 0) then quotient else quotient + 1

/-- The integer nearest to `num / den`, and of two equally near the greater one. -/
def roundDivUp (num den : Nat) : Nat :=
  (2 * num + den) / (2 * den)

namespace Binary64

/-- The exponent of the least positive numbers. -/
def minExponent : Int := -1074

/-- The exponent of the greatest numbers. -/
def maxExponent : Int := 971

/-- The number of bits in the significand of the greatest numbers. -/
def precision : Nat := 53

/-- The leading bit of such a significand, by itself. -/
def leadingBit : Nat := Nat.pow 2 (precision - 1)

/-- The greatest power of two, as an exponent, that is not above the positive quotient
`num / den`. -/
def floorLog2 (num den : Nat) : Int :=
  let guess : Int := (Nat.log2 num : Int) - Nat.log2 den
  if den * powNum 2 guess ≤ num * powDen 2 guess then guess else guess - 1

/-- The number nearest to `num / den`, with a sign. -/
def ofRatio (negative : Bool) (num den : Nat) : Binary64 :=
  if num = 0 then finite negative 0 minExponent
  else
    let exponent := max minExponent (floorLog2 num den - (precision - 1 : Nat))
    let significand := roundDivEven (num * powDen 2 exponent) (den * powNum 2 exponent)
    let (significand, exponent) :=
      if significand = 2 * leadingBit then (leadingBit, exponent + 1)
      else (significand, exponent)
    if maxExponent < exponent then infinite negative else finite negative significand exponent

/-- The number of decimal digits of a natural number; zero has one. -/
def digitCount (n : Nat) : Nat :=
  (Nat.toDigits 10 n).length

/-- The number nearest to `digits * 10 ^ exponent`, with a sign. Exponents out of all reach are
settled by the size of the quotient, without building it. -/
def ofDecimal (negative : Bool) (digits : Nat) (exponent : Int) : Binary64 :=
  if digits = 0 then finite negative 0 minExponent
  else if 400 < digitCount digits + exponent then infinite negative
  else if digitCount digits + exponent < -400 then finite negative 0 minExponent
  else ofRatio negative (digits * powNum 10 exponent) (powDen 10 exponent)

/-- The product of two finite numbers, with the sign of the first; an infinity or a `nan` among
them is returned. -/
def scaleBy : Binary64 → Binary64 → Binary64
  | finite negative m e, finite _ n f =>
    let exponent := e + f
    ofRatio negative (m * n * powNum 2 exponent) (powDen 2 exponent)
  | finite _ _ _, y => y
  | x, _ => x

/-- Whether the number is an infinity. -/
def isInfinite : Binary64 → Bool
  | infinite _ => true
  | _ => false

/-- The integer nearest to the number, where a half goes up, within `[0, limit]`: numbers below
zero and `nan` give zero. -/
def roundToNat (limit : Nat) : Binary64 → Nat
  | nan => 0
  | infinite negative => if negative then 0 else limit
  | finite negative m e =>
    if negative then 0 else min limit (roundDivUp (m * powNum 2 e) (powDen 2 e))

end Binary64

end ScopeGrant
