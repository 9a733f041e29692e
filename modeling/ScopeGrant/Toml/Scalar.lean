import ScopeGrant.Settings.Setting
import ScopeGrant.Toml.Moment
import ScopeGrant.Toml.Number
import ScopeGrant.Toml.Quoted

/-!
# Single values of a document

What is neither a text nor put together from other values is a row of characters without blanks: a
truth value, a number, a date or a time. A date and a time of day may have one space between them.
-/

namespace ScopeGrant.Toml

open Text (Taken)

/-- Whether a character may stand in a single value. -/
def isScalarChar (c : Char) : Bool :=
  c.isAlphanum || c == '_' || c == '-' || c == '+' || c == '.' || c == ':'

/-- The setting that a row of characters stands for. -/
def scalar? (chars : List Char) : Option Setting :=
  if chars = "true".toList then some (.boolean true)
  else if chars = "false".toList then some (.boolean false)
  else
    match integer? chars, number? chars with
    | some n, _ => some (.integer n)
    | none, some x => some (.number x)
    | none, none => (moment? chars).map .text

/-- The number of characters of a single value. A date takes in the time of day behind one space. -/
def scalarLength (cs : List Char) : Nat :=
  let first := cs.takeWhile isScalarChar
  match takeDate first, cs.drop first.length with
  | some (_, []), ' ' :: c :: rest =>
    if c.isDigit then first.length + 1 + ((c :: rest).takeWhile isScalarChar).length
    else first.length
  | _, _ => first.length

/-- Take a single value. -/
def scalar (cs : List Char) : Option (Taken cs Setting) :=
  let chars := cs.take (scalarLength cs)
  if h : 0 < chars.length then
    (scalar? chars).map fun setting => ⟨setting, cs.drop (scalarLength cs), by
      simp only [chars, List.length_take] at h
      simp only [List.length_drop]
      omega⟩
  else none

end ScopeGrant.Toml
