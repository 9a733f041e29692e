/-!
# What can be wrong with a scope

Three families of faults: an expression that does not follow the grammar, a dependency chain that
comes back to one of its own scopes, and a caller that asks for one scope where the text holds none
or several. Each fault is a cause; `ScopeError.message` is its wording.
-/

namespace ScopeGrant

/-- The ways in which a scope expression can break the grammar. -/
inductive ParseErrorKind where
  /-- A star at the end of the text, or directly after a scope or before a closing bracket. -/
  | danglingOptional
  /-- A star that is followed by something other than a scope. -/
  | optionalNotAdjacent
  /-- A pair of brackets with no scope inside. -/
  | emptyBrackets
  /-- An opening bracket that follows no scope. -/
  | unattachedBracket
  /-- Two terms with nothing blank between them. -/
  | missingSeparator
  /-- Blank text between a scope and its opening bracket. -/
  | spaceBeforeBracket
  /-- An opening bracket that is never closed. -/
  | unclosedBracket
  /-- A closing bracket that closes nothing. -/
  | unopenedBracket
  /-- A scope value that is empty or holds a reserved character. -/
  | invalidToken
  /-- More brackets open at once than the parser allows. -/
  | tooDeep
deriving Repr, DecidableEq, Inhabited

/-- What is wrong, in words. -/
def ParseErrorKind.description : ParseErrorKind → String
  | danglingOptional => "optional marker '*' is not followed by a scope"
  | optionalNotAdjacent => "optional marker '*' must be directly followed by a scope"
  | emptyBrackets => "dependency brackets must not be empty"
  | unattachedBracket => "'[' must directly follow a scope"
  | missingSeparator => "scopes must be separated by whitespace"
  | spaceBeforeBracket => "whitespace is not allowed before '['"
  | unclosedBracket => "'[' is never closed"
  | unopenedBracket => "']' has no matching '['"
  | invalidToken => "scope contains reserved characters or is empty"
  | tooDeep => "dependency nesting exceeds the configured limit"

/-- The ways in which a text that should hold one scope can fail to. -/
inductive Misuse where
  /-- The text is blank. -/
  | blank
  /-- The text `input` holds `found` top-level scopes, which is not one. -/
  | notSingle (input : String) (found : Nat)
deriving Repr, DecidableEq, Inhabited

/-- The wording of a misuse. -/
def Misuse.message : Misuse → String
  | blank => "cannot deserialize an empty scope string"
  | notSingle input found =>
    "expected exactly one top-level scope in '" ++ input ++ "', found " ++ toString found

/-- What is wrong with a scope or a scope expression. -/
inductive ScopeError where
  /-- The expression `input` breaks the grammar at the byte offset `position`. -/
  | parse (kind : ParseErrorKind) (position : Nat) (input : String)
  /-- A chain of dependencies reaches `value` again; `path` is the chain, from the outermost scope
  down to the repeat. -/
  | cycle (value : String) (path : List String)
  /-- The text does not hold exactly one scope. -/
  | usage (misuse : Misuse)
deriving Repr, DecidableEq, Inhabited

/-- The wording of a scope error. -/
def ScopeError.message : ScopeError → String
  | parse kind position input =>
    "Scope parse error: " ++ kind.description ++ " at position " ++ toString position ++
      " in '" ++ input ++ "'"
  | cycle value path =>
    "Scope dependency cycle on '" ++ value ++ "': " ++ String.intercalate " -> " path
  | usage misuse => "Invalid scope usage: " ++ misuse.message

end ScopeGrant
