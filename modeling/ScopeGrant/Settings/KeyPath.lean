import ScopeGrant.Numeric.Word
import ScopeGrant.Settings.Setting
import ScopeGrant.Text.Digit

/-!
# Names that are paths

At the outermost level a setting may be named by a path: segments of letters, digits, underscores
and hyphens with points between them, each followed by any number of places in square brackets. A
name that is no such path names an entry as it stands.
-/

namespace ScopeGrant.KeyPath

open Setting (Step)
open Text (natural?)

/-- Whether a character may stand in a segment. -/
def isSegmentChar (c : Char) : Bool :=
  c.isAlphanum || c == '_' || c == '-'

/-- Whether a character may stand beside a place within its brackets. -/
def isPadding (c : Char) : Bool :=
  c == ' ' || c == '\t'

/-- The place between a pair of square brackets. It fits a signed integer of 64 bits. -/
def place? (chars : List Char) : Option Int := do
  let chars := ((chars.dropWhile isPadding).reverse.dropWhile isPadding).reverse
  match chars with
  | '-' :: digits => signed? (-(← natural? digits))
  | digits => signed? (← natural? digits)

/-- The steps of a path behind its first segment. -/
def stepsAfter : List Char → Option (List Step)
  | [] => some []
  | '.' :: rest => do
    let segment := rest.takeWhile isSegmentChar
    if segment.isEmpty then none
    return .entry (String.ofList segment) :: (← stepsAfter (rest.dropWhile isSegmentChar))
  | '[' :: rest =>
    match _h : rest.dropWhile (· != ']') with
    | [] => none
    | _ :: rest' => do
      let place ← place? (rest.takeWhile (· != ']'))
      return .item place :: (← stepsAfter rest')
  | _ => none
termination_by chars => chars.length
decreasing_by
  · exact Nat.lt_succ_of_le (List.dropWhile_sublist _).length_le
  · have := (List.dropWhile_sublist (l := rest) (· != ']')).length_le
    rw [_h] at this
    simp at this ⊢
    omega

/-- The steps of a path. -/
def read? (name : String) : Option (List Step) := do
  let chars := name.toList
  let segment := chars.takeWhile isSegmentChar
  if segment.isEmpty then none
  return .entry (String.ofList segment) :: (← stepsAfter (chars.dropWhile isSegmentChar))

/-- The steps that a name stands for. -/
def ofName (name : String) : List Step :=
  (read? name).getD [.entry name]

example : read? "a.b[-1]" = some [.entry "a", .entry "b", .item (-1)] := by decide +kernel

example : read? "a[0" = none ∧ read? "a..b" = none ∧ read? "a b" = none := by decide +kernel

end ScopeGrant.KeyPath
