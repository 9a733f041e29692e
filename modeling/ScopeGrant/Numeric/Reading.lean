import ScopeGrant.Numeric.Binary64
import ScopeGrant.Text.Digit

/-!
# Reading floating-point numbers

A floating-point number is written as decimal digits with an optional sign, point and exponent;
digits may be missing on one side of the point. Infinity and `nan` are words. The number that is
read is the one nearest to the written value.
-/

namespace ScopeGrant.Binary64

open Text (digitsValue integer? takeSign)

/-- The nearest number to digits before and behind a point, with an exponent. -/
def ofParts (negative : Bool) (whole fraction : List Char) (exponent : Int) : Binary64 :=
  ofDecimal negative (digitsValue (whole ++ fraction)) (exponent - fraction.length)

/-- The exponent of a number, given what follows its digits; there need not be one. -/
def exponent? : List Char → Option Int
  | [] => some 0
  | c :: rest => if c == 'e' || c == 'E' then integer? rest else none

/-- The number that a text without sign stands for. -/
def unsigned? (negative : Bool) (text : List Char) : Option Binary64 := do
  let whole := text.takeWhile Char.isDigit
  let rest := text.dropWhile Char.isDigit
  let (fraction, rest) :=
    match rest with
    | '.' :: rest => (rest.takeWhile Char.isDigit, rest.dropWhile Char.isDigit)
    | rest => ([], rest)
  if whole.isEmpty && fraction.isEmpty then none
  return ofParts negative whole fraction (← exponent? rest)

/-- The number that a text stands for. The words for infinity and `nan` may be in any case. -/
def read? (text : List Char) : Option Binary64 :=
  let (negative, text) := takeSign text
  let word := String.ofList (text.map Char.toLower)
  if word = "inf" ∨ word = "infinity" then some (infinite negative)
  else if word = "nan" then some nan
  else unsigned? negative text

example : read? "+8".toList = some (ofRatio false 8 1) := by decide +kernel

example : read? "-.5e-1".toList = some (ofRatio true 1 20) := by decide +kernel

example : read? "e5".toList = none ∧ read? ".".toList = none := by decide +kernel

end ScopeGrant.Binary64
