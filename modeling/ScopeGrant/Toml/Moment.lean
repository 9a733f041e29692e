import ScopeGrant.Text.Digit

/-!
# Dates and times of a document

A document may hold a date, a time of day, or both, and then also the distance from universal time.
They are kept as text in one canonical form: the letters in upper case, no superfluous zeros behind
the point of the seconds, and at most nine digits there.
-/

namespace ScopeGrant.Toml

open Text (digitsValue)

/-- A day of the calendar. -/
structure Date where
  /-- The year. -/
  year : Nat
  /-- The month, from one on. -/
  month : Nat
  /-- The day of the month, from one on. -/
  day : Nat
deriving Repr, DecidableEq

/-- A time of day. -/
structure TimeOfDay where
  /-- The hour. -/
  hour : Nat
  /-- The minute. -/
  minute : Nat
  /-- The second, if there is one. -/
  second : Option Nat
  /-- The digits behind the point of the second, if there is one. -/
  fraction : Option (List Char)
deriving Repr, DecidableEq

/-- A distance from universal time. -/
inductive Offset where
  /-- None. -/
  | zero
  /-- Hours and minutes, ahead or behind. -/
  | shift (behind : Bool) (hours minutes : Nat)
deriving Repr, DecidableEq

/-! ## Reading -/

/-- The value of `count` decimal digits at the front of a row, and what follows them. -/
def takeDigits (count : Nat) (chars : List Char) : Option (Nat × List Char) :=
  let digits := chars.take count
  if digits.length = count ∧ digits.all Char.isDigit then
    some (digitsValue digits, chars.drop count)
  else none

/-- What follows a character at the front of a row. -/
def behind? (c : Char) : List Char → Option (List Char)
  | [] => none
  | d :: rest => if d == c then some rest else none

/-- Whether a year has a leap day. -/
def isLeapYear (year : Nat) : Bool :=
  year % 4 == 0 && (year % 100 != 0 || year % 400 == 0)

/-- The number of days of a month. -/
def daysOfMonth (year month : Nat) : Nat :=
  if month = 2 then (if isLeapYear year then 29 else 28)
  else if month ∈ [4, 6, 9, 11] then 30
  else 31

/-- A day at the front of a row, and what follows it. -/
def takeDate (chars : List Char) : Option (Date × List Char) := do
  let (year, rest) ← takeDigits 4 chars
  let (month, rest) ← takeDigits 2 (← behind? '-' rest)
  let (day, rest) ← takeDigits 2 (← behind? '-' rest)
  if 1 ≤ month ∧ month ≤ 12 ∧ 1 ≤ day ∧ day ≤ daysOfMonth year month then
    some (⟨year, month, day⟩, rest)
  else none

/-- The digits behind the point of a second, and what follows them; there need not be a point. -/
def takeFraction : List Char → Option (Option (List Char) × List Char)
  | '.' :: rest =>
    let digits := rest.takeWhile Char.isDigit
    if digits.isEmpty then none else some (some digits, rest.dropWhile Char.isDigit)
  | rest => some (none, rest)

/-- A time of day at the front of a row, and what follows it. A leap second is in order. -/
def takeTime (chars : List Char) : Option (TimeOfDay × List Char) := do
  let (hour, rest) ← takeDigits 2 chars
  let (minute, rest) ← takeDigits 2 (← behind? ':' rest)
  if 23 < hour ∨ 59 < minute then none
  match rest with
  | ':' :: rest =>
    let (second, rest) ← takeDigits 2 rest
    let (fraction, rest) ← takeFraction rest
    if 60 < second then none else some (⟨hour, minute, some second, fraction⟩, rest)
  | rest => some (⟨hour, minute, none, none⟩, rest)

/-- The distance from universal time that a row of characters stands for; an empty row leaves it
open. -/
def offset? : List Char → Option (Option Offset)
  | [] => some none
  | ['Z'] => some (some .zero)
  | ['z'] => some (some .zero)
  | sign :: rest => do
    if sign != '+' && sign != '-' then none
    let (hours, rest) ← takeDigits 2 rest
    let (minutes, rest) ← takeDigits 2 (← behind? ':' rest)
    if 23 < hours ∨ 59 < minutes ∨ !rest.isEmpty then none
    return some (.shift (sign == '-') hours minutes)

/-! ## Writing -/

/-- A number in at least `width` digits. -/
def padded (width n : Nat) : String :=
  let digits := toString n
  String.ofList (List.replicate (width - digits.length) '0') ++ digits

/-- A day in canonical form. -/
def Date.text (d : Date) : String :=
  padded 4 d.year ++ "-" ++ padded 2 d.month ++ "-" ++ padded 2 d.day

/-- The digits behind the point of a second in canonical form. -/
def fractionText (digits : List Char) : String :=
  let kept := ((digits.take 9).reverse.dropWhile (· == '0')).reverse
  if kept.isEmpty then "0" else String.ofList kept

/-- A time of day in canonical form. -/
def TimeOfDay.text (t : TimeOfDay) : String :=
  padded 2 t.hour ++ ":" ++ padded 2 t.minute ++
    ((t.second.map fun s => ":" ++ padded 2 s).getD "") ++
    ((t.fraction.map fun f => "." ++ fractionText f).getD "")

/-- A distance from universal time in canonical form. One of no length is ahead. -/
def Offset.text : Offset → String
  | zero => "Z"
  | .shift behind hours minutes =>
    (if behind && 0 < hours + minutes then "-" else "+") ++ padded 2 hours ++ ":" ++
      padded 2 minutes

/-! ## Moments -/

/-- Whether a character parts a date from a time. -/
def isDateEnd (c : Char) : Bool :=
  c == 'T' || c == 't' || c == ' '

/-- The canonical form of what follows a date. -/
def afterDate? : List Char → Option String
  | [] => some ""
  | c :: rest => do
    if !isDateEnd c then none
    let (time, rest) ← takeTime rest
    let offset ← offset? rest
    return "T" ++ time.text ++ ((offset.map Offset.text).getD "")

/-- The canonical form of the date, the time or both that a row of characters stands for. -/
def moment? (chars : List Char) : Option String :=
  match takeDate chars with
  | some (date, rest) => (afterDate? rest).map (date.text ++ ·)
  | none => do
    let (time, rest) ← takeTime chars
    if rest.isEmpty then some time.text else none

example : moment? "1979-05-27 07:32:00.1230z".toList = some "1979-05-27T07:32:00.123Z" := by
  decide +kernel

example : moment? "2023-02-29".toList = none ∧ moment? "07:32".toList = some "07:32" := by
  decide +kernel

end ScopeGrant.Toml
