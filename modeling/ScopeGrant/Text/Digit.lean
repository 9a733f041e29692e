/-!
# Digits

Decimal and hexadecimal digits, and the numbers that rows of them stand for.
-/

namespace ScopeGrant.Text

/-- The value of a decimal digit. -/
def digitValue (c : Char) : Nat :=
  c.toNat - '0'.toNat

/-- The value of a row of decimal digits. -/
def digitsValue (digits : List Char) : Nat :=
  digits.foldl (fun n c => n * 10 + digitValue c) 0

/-- The natural number that a row of decimal digits stands for, if it is such a row. -/
def natural? (digits : List Char) : Option Nat :=
  if digits.isEmpty || !digits.all Char.isDigit then none else some (digitsValue digits)

/-- Whether a number begins with a minus sign, and the number behind its sign if it has one. -/
def takeSign : List Char → Bool × List Char
  | '+' :: rest => (false, rest)
  | '-' :: rest => (true, rest)
  | rest => (false, rest)

theorem length_takeSign (text : List Char) : (takeSign text).2.length ≤ text.length := by
  unfold takeSign
  split <;> simp

/-- The integer that decimal digits behind an optional sign stand for. -/
def integer? (text : List Char) : Option Int :=
  let (negative, digits) := takeSign text
  (natural? digits).map fun n => if negative then -(n : Int) else n

/-- The value of a hexadecimal digit. -/
def hexValue? (c : Char) : Option Nat :=
  if c.isDigit then some (digitValue c)
  else if 'a' ≤ c ∧ c ≤ 'f' then some (c.toNat - 'a'.toNat + 10)
  else if 'A' ≤ c ∧ c ≤ 'F' then some (c.toNat - 'A'.toNat + 10)
  else none

/-- A number in lower-case hexadecimal digits. -/
def hexDigits (n : Nat) : String :=
  String.ofList (Nat.toDigits 16 n)

/-- The value of `count` hexadecimal digits at the front of a text, which continue `value`, and what
follows them. -/
def takeHex (value : Nat) : (count : Nat) → List Char → Option (Nat × List Char)
  | 0, text => some (value, text)
  | _ + 1, [] => none
  | count + 1, c :: rest =>
    match hexValue? c with
    | some digit => takeHex (value * 16 + digit) count rest
    | none => none

theorem length_of_takeHex {value count n : Nat} {text rest : List Char}
    (h : takeHex value count text = some (n, rest)) : rest.length ≤ text.length := by
  fun_induction takeHex value count text with
  | case1 => simp_all
  | case2 => simp at h
  | case3 _ _ _ _ _ _ ih => exact Nat.le_succ_of_le (ih h)
  | case4 => simp at h

end ScopeGrant.Text
