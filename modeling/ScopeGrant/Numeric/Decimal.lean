import ScopeGrant.Numeric.Binary64

/-!
# Decimal texts of floating-point numbers

Two ways of writing a floating-point number in decimal digits: with a fixed number of places, and
with as few digits as read back as the same number. Neither uses an exponent.
-/

namespace ScopeGrant

/-- A decimal number `digits * 10 ^ exponent`. -/
structure Decimal where
  /-- The digits, as a natural number. -/
  digits : Nat
  /-- The power of ten. -/
  exponent : Int
deriving Repr, DecidableEq, Inhabited

namespace Decimal

/-- A row of zeros. -/
def zeros (count : Nat) : String :=
  String.ofList (List.replicate count '0')

/-- The number with `places` digits behind the point, given how many units of the last place it
has. -/
def withPlaces (units places : Nat) : String :=
  let digits := toString units
  let digits := zeros (places + 1 - digits.length) ++ digits
  let whole := digits.length - places
  if places = 0 then digits
  else String.ofList (digits.toList.take whole) ++ "." ++ String.ofList (digits.toList.drop whole)

/-- The digits in plain notation: a point only where there are digits behind it. -/
def plain (d : Decimal) : String :=
  if d.exponent < 0 then withPlaces d.digits (-d.exponent).toNat
  else toString d.digits ++ zeros d.exponent.toNat

/-- Compare `digits * 10 ^ exponent` with `m * 2 ^ e`. -/
def compareBinary (d : Decimal) (m : Nat) (e : Int) : Ordering :=
  compare (d.digits * powNum 10 d.exponent * powDen 2 e)
    (m * powNum 2 e * powDen 10 d.exponent)

end Decimal

namespace Binary64

/-- Whether a decimal number is nearest to `m * 2 ^ e` among the floating-point numbers, which it is
within half the distance to either neighbour, ends included if `m` is even. The neighbour below a
power of two is nearer than the one above. -/
def readsBack (m : Nat) (e : Int) (d : Decimal) : Bool :=
  let below := if m = leadingBit ∧ minExponent < e then 4 * m - 1 else 4 * m - 2
  let low := d.compareBinary below (e - 2)
  let high := d.compareBinary (4 * m + 2) (e - 2)
  let even := m % 2 == 0
  (low == .gt || even && low == .eq) && (high == .lt || even && high == .eq)

/-- The power of ten of the leading decimal digit of `m * 2 ^ e`; no positive number here lies
below `10 ^ -400`. -/
def floorLog10 (m : Nat) (e : Int) : Int :=
  (digitCount (m * powNum 2 e * Nat.pow 10 400 / powDen 2 e) : Int) - 401

/-- The decimal number on the grid of multiples of `10 ^ exponent` that reads back as `m * 2 ^ e`,
and of two such the nearer one; halfway between them it is the greater one. -/
def onGrid? (m : Nat) (e : Int) (exponent : Int) : Option Decimal :=
  let num := m * powNum 2 e * powDen 10 exponent
  let den := powDen 2 e * powNum 10 exponent
  let near : Decimal := ⟨roundDivUp num den, exponent⟩
  let floor : Decimal := ⟨num / den, exponent⟩
  let ceiling : Decimal := ⟨num / den + 1, exponent⟩
  [near, floor, ceiling].find? (readsBack m e)

/-- The shortest decimal number that reads back as `m * 2 ^ e`: the first hit on ever finer grids,
of which one with at most seventeen digits hits. The exact value stands in where none does. -/
def shortest (m : Nat) (e : Int) : Decimal :=
  let top := floorLog10 m e + 1
  let grids := (List.range 19).map fun (i : Nat) => top - (i : Int)
  (grids.findSome? (onGrid? m e)).getD ⟨m * powNum 2 e * powDen 5 e, min e 0⟩

/-- The shortest text that reads back as the number. -/
def text : Binary64 → String
  | nan => "NaN"
  | infinite negative => if negative then "-inf" else "inf"
  | finite negative m e =>
    (if negative then "-" else "") ++ (if m = 0 then "0" else (shortest m e).plain)

/-- A finite number with a fixed number of places; a half goes to the even neighbour. -/
def textWithPlaces (places : Nat) : Binary64 → String
  | nan => "NaN"
  | infinite negative => if negative then "-inf" else "inf"
  | finite negative m e =>
    (if negative then "-" else "") ++
      Decimal.withPlaces (roundDivEven (m * powNum 2 e * Nat.pow 10 places) (powDen 2 e)) places

example : (ofDecimal false 1 (-1)).text = "0.1" := by decide +kernel

example : (ofDecimal false 1 23).text = "100000000000000000000000" := by decide +kernel

example : (ofRatio false 1 33554432).text = "0.000000029802322387695313" := by decide +kernel

example : (ofRatio false 2 3).textWithPlaces 6 = "0.666667" := by decide +kernel

end Binary64

end ScopeGrant
