import ScopeGrant.Numeric.Reading
import ScopeGrant.Numeric.Word

/-!
# Numbers of a document

Integers are decimal, or hexadecimal, octal or binary behind a mark, and must fit 64 bits with a
sign. Floating-point numbers have a point, an exponent or both, with digits on either side of the
point, and must not be too great. Single underscores may stand between digits, and a decimal number
does not begin with a superfluous zero.
-/

namespace ScopeGrant.Toml

open Text (digitsValue hexValue? takeSign)

/-- The digits of a row in which single underscores may stand between digits. -/
def ungroup? (isDigit : Char → Bool) : List Char → Option (List Char)
  | [] => none
  | [c] => if isDigit c then some [c] else none
  | c :: '_' :: rest => if isDigit c then (ungroup? isDigit rest).map (c :: ·) else none
  | c :: rest => if isDigit c then (ungroup? isDigit rest).map (c :: ·) else none

/-- The digits of a decimal number before its point. -/
def wholeDigits? (chars : List Char) : Option (List Char) := do
  let digits ← ungroup? Char.isDigit chars
  if digits.head? = some '0' ∧ 1 < digits.length then none else some digits

/-- The value of digits to a base up to sixteen, each below the base. -/
def baseValue? (base : Nat) (chars : List Char) : Option Nat := do
  let isDigit := fun c => (hexValue? c).any (· < base)
  let digits ← ungroup? isDigit chars
  return digits.foldl (fun n c => n * base + (hexValue? c).getD 0) 0

/-- The value of an integer, whatever its size. -/
def unboundedInteger? (chars : List Char) : Option Int :=
  match chars with
  | '0' :: 'x' :: digits => (baseValue? 16 digits).map Int.ofNat
  | '0' :: 'o' :: digits => (baseValue? 8 digits).map Int.ofNat
  | '0' :: 'b' :: digits => (baseValue? 2 digits).map Int.ofNat
  | chars => do
    let (negative, chars) := takeSign chars
    let value := digitsValue (← wholeDigits? chars)
    return if negative then -(value : Int) else value

/-- The integer that a row of characters stands for. -/
def integer? (chars : List Char) : Option Int :=
  (unboundedInteger? chars).bind signed?

/-- Whether a character belongs to a row of grouped digits. -/
def isGroupChar (c : Char) : Bool :=
  c.isDigit || c == '_'

/-- The digits behind the point of a number, and what follows them; there need not be a point. -/
def fraction? : List Char → Option (List Char × List Char)
  | '.' :: rest => do
    return (← ungroup? Char.isDigit (rest.takeWhile isGroupChar), rest.dropWhile isGroupChar)
  | rest => some ([], rest)

/-- The exponent of a number, given what follows its digits; there need not be one. -/
def exponent? : List Char → Option Int
  | [] => some 0
  | c :: rest => do
    if c != 'e' && c != 'E' then none
    let (negative, chars) := takeSign rest
    let value := digitsValue (← ungroup? Char.isDigit chars)
    return if negative then -(value : Int) else value

/-- The floating-point number that a row of characters stands for. A row without point and exponent
stands for none. -/
def number? (chars : List Char) : Option Binary64 := do
  let (negative, chars) := takeSign chars
  if chars = ['i', 'n', 'f'] then return .infinite negative
  if chars = ['n', 'a', 'n'] then return .nan
  let whole ← wholeDigits? (chars.takeWhile isGroupChar)
  let rest := chars.dropWhile isGroupChar
  if rest.isEmpty then none
  let (fraction, rest) ← fraction? rest
  let value := Binary64.ofParts negative whole fraction (← exponent? rest)
  if value.isInfinite then none else some value

example : integer? "1_000".toList = some 1000 ∧ integer? "-0".toList = some 0 := by decide +kernel

example : integer? "1__0".toList = none ∧ integer? "00".toList = none := by decide +kernel

example : number? "1e3".toList = some (.ofRatio false 1000 1) := by decide +kernel

example : number? "1.".toList = none ∧ number? "1e400".toList = none := by decide +kernel

end ScopeGrant.Toml
