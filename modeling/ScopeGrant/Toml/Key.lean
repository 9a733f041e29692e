import ScopeGrant.Toml.Quoted

/-!
# Keys of a document

A key is a row of names with points between them. A name is bare, made of letters, digits,
underscores and hyphens, or a quoted text on one line. Spaces and tabs may stand around the points.
A key has only so many names.
-/

namespace ScopeGrant.Toml

open Text (Taken)

/-- Whether a character may stand in a bare name. -/
def isBareChar (c : Char) : Bool :=
  c.isAlphanum || c == '_' || c == '-'

/-- Take a bare name. -/
def bareName : Reader String
  | [] => none
  | c :: rest =>
    if isBareChar c then
      some ⟨String.ofList (c :: rest.takeWhile isBareChar), rest.dropWhile isBareChar,
        Nat.lt_succ_of_le (List.dropWhile_sublist _).length_le⟩
    else none

/-- Take a name. -/
def name : Reader String := fun cs =>
  match quotedLine cs with
  | some taken => some taken
  | none => bareName cs

/-- A row of names: the last one, and the ones before it. -/
structure Key where
  /-- The names before the last one. -/
  parents : List String
  /-- The last name. -/
  last : String
deriving Repr, DecidableEq

/-- All names of a key. -/
def Key.path (key : Key) : List String :=
  key.parents ++ [key.last]

/-- Put a name in front of a key. -/
def Key.below (parent : String) (key : Key) : Key :=
  ⟨parent :: key.parents, key.last⟩

/-- Take a row of names with points between them. Spaces and tabs may stand before it. -/
def nameRow (cs : List Char) : Option (Taken cs Key) :=
  match behindSpace name cs with
  | none => none
  | some first =>
    match behindSpace (sign '.') first.rest with
    | none => some (first.map fun only => ⟨[], only⟩)
    | some point =>
      (nameRow point.rest).map fun more =>
        first.followedBy (point.followedBy (more.map (·.below first.value)))
termination_by cs.length
decreasing_by exact Nat.lt_trans point.shorter first.shorter

/-- How many names a key may have. -/
def maxNames : Nat := 80

/-- Take a key. Spaces and tabs may stand before it. -/
def key : Reader Key := fun cs =>
  (nameRow cs).filter fun taken => taken.value.path.length ≤ maxNames

end ScopeGrant.Toml
