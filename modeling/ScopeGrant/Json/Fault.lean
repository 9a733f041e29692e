import ScopeGrant.Scope.Error
import ScopeGrant.Text.Quoted

/-!
# What can be wrong with a JSON text

A text is read from left to right, and the first fault in its order is the one that counts. A fault
is of one of three kinds: the text ends too early, it is not JSON, or it is JSON of another shape
than the one that is asked for.
-/

namespace ScopeGrant.Json

/-- What stands in a text where something else is asked for. -/
inductive Found where
  /-- The literal `null`. -/
  | null
  /-- A truth value. -/
  | boolean (value : Bool)
  /-- An integer of at most 64 bits. -/
  | integer (value : Int)
  /-- Any other number. -/
  | fraction
  /-- A text. -/
  | text (value : String)
  /-- An array. -/
  | sequence
  /-- An object. -/
  | map
deriving Repr, DecidableEq, Inhabited

/-- What stands there, in words. -/
def Found.describe : Found → String
  | null => "null"
  | boolean value => "boolean \x60" ++ toString value ++ "\x60"
  | integer value => "integer \x60" ++ toString value ++ "\x60"
  | fraction => "floating point"
  | text value => "string " ++ Text.quoted value
  | sequence => "sequence"
  | map => "map"

/-- The ways in which a JSON text can have another shape than the one asked for. -/
inductive Mismatch where
  /-- A value of another kind. -/
  | kind (found : Found) (expected : String)
  /-- An integer out of range. -/
  | range (found : Int) (expected : String)
  /-- An object without a field that it must have. -/
  | missing (field : String)
  /-- An object with a field that it has already had. -/
  | repeated (field : String)
  /-- An array that ends where a field must stand. -/
  | short (length : Nat) (expected : String)
  /-- A text that is no scope. -/
  | scope (error : ScopeError)
deriving Repr, DecidableEq, Inhabited

/-- The wording of a mismatch. One about a fractional number has none, for how the number is
written out is left open. -/
def Mismatch.message? : Mismatch → Option String
  | kind .fraction _ => none
  | kind found expected => some ("invalid type: " ++ found.describe ++ ", expected " ++ expected)
  | range found expected =>
    some ("invalid value: " ++ (Found.integer found).describe ++ ", expected " ++ expected)
  | missing field => some ("missing field \x60" ++ field ++ "\x60")
  | repeated field => some ("duplicate field \x60" ++ field ++ "\x60")
  | short length expected =>
    some ("invalid length " ++ toString length ++ ", expected " ++ expected)
  | scope error => some error.message

/-- What is wrong with a JSON text. -/
inductive Fault where
  /-- The text ends inside a value. -/
  | truncated
  /-- The text is not JSON. -/
  | malformed
  /-- The text has another shape than the one asked for. -/
  | mismatch (mismatch : Mismatch)
deriving Repr, DecidableEq, Inhabited

/-- The wording of a fault, where it has one. -/
def Fault.message? : Fault → Option String
  | truncated => none
  | malformed => none
  | mismatch m => m.message?

end ScopeGrant.Json
