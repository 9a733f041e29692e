import ScopeGrant.Json.Decoder
import ScopeGrant.Json.Writer
import ScopeGrant.Scope.Parser
import ScopeGrant.Scope.Printer

/-!
# Scopes in JSON

In JSON a scope is a text that holds its expression. It is written in canonical form, and reading
refuses a text that does not hold exactly one scope.
-/

namespace ScopeGrant.Scope

/-- The scope of a JSON text. -/
def decoder : Json.Decoder Scope :=
  Json.text.refine fun s =>
    match parseOne s with
    | .ok scope => .ok scope
    | .error e => .error (.mismatch (.scope e))

/-- Read a scope. -/
def ofJson (input : String) : Except Json.Fault Scope :=
  Json.decodeText decoder input

/-- Read a list of scopes. -/
def listOfJson (input : String) : Except Json.Fault (List Scope) :=
  Json.decodeText (Json.array decoder) input

/-- Write a scope. -/
def toJson (s : Scope) : String :=
  Json.writeText s.render

/-- Write a list of scopes. -/
def listToJson (scopes : List Scope) : String :=
  Json.writeArray (scopes.map toJson)

end ScopeGrant.Scope
