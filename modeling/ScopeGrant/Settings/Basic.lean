import ScopeGrant.Scope.Parser
import ScopeGrant.Text.Blank
import Std.Data.ExtTreeMap

/-!
# Settings

Settings say how deep scope expressions may nest, and which scopes each resource server requires.
Settings that are in order bound the nesting by a positive number if at all, name no server by a
blank text, and hold only expressions that can be read within that bound.
-/

namespace ScopeGrant

open Std (ExtTreeMap)

/-- Settings of scope requirements. -/
structure Settings where
  /-- The greatest nesting of scope expressions; `none` is no bound. -/
  maxDepth : Option Nat := none
  /-- The required scopes of each resource server, as they are written. -/
  servers : ExtTreeMap String (List String) := ∅

/-- Where an expression was found to be no scope expression. -/
inductive ScopeUse where
  /-- When settings were checked. -/
  | checked
  /-- When a requirement set was made of settings. -/
  | collected
deriving Repr, DecidableEq, Inhabited

/-- What can be wrong with settings. -/
inductive SettingsError where
  /-- There is no file at a path that was asked for. -/
  | notFound (path : String)
  /-- A document cannot be read, or a setting has a kind that cannot be used. -/
  | unreadable
  /-- Expressions may not nest at all. -/
  | zeroDepth
  /-- A resource server has a blank name. -/
  | blankServer
  /-- A required scope cannot be read. -/
  | invalidScope (use : ScopeUse) (server scope : String) (error : ScopeError)
deriving Repr, DecidableEq, Inhabited

namespace SettingsError

/-- Why a required scope cannot be read, in words. -/
def reason (server : String) (error : ScopeError) : ScopeUse → String
  | .checked => "in resource_servers." ++ server ++ ".scopes: " ++ error.message
  | .collected => error.message

/-- The error in words. What makes a document unreadable is left open. -/
def message? : SettingsError → Option String
  | notFound path => some ("Failed to load configuration: Configuration file not found: " ++ path)
  | unreadable => none
  | zeroDepth => some "Invalid configuration: parser.max_depth must be greater than 0"
  | blankServer => some "Invalid configuration: resource_servers keys must not be empty"
  | invalidScope use server scope error =>
    some ("Invalid scope '" ++ scope ++ "' for resource server '" ++ server ++ "': " ++
      reason server error use)

end SettingsError

namespace Settings

/-- The parser for scope expressions. -/
def parser (s : Settings) : Parser :=
  ⟨s.maxDepth⟩

/-- Check one required scope of a server. -/
def checkScope (s : Settings) (server scope : String) : Except SettingsError Unit :=
  ((s.parser.parse scope).map fun _ => ()).mapError (.invalidScope .checked server scope)

/-- Check a server and its required scopes. -/
def checkServer (s : Settings) (server : String) (scopes : List String) :
    Except SettingsError Unit := do
  if Text.isBlankText server then throw .blankServer
  scopes.forM (s.checkScope server)

/-- Check that settings are in order. The bound is checked first, then server by server. -/
def check (s : Settings) : Except SettingsError Unit := do
  if s.maxDepth = some 0 then throw .zeroDepth
  s.servers.toList.forM fun (server, scopes) => s.checkServer server scopes

end Settings

end ScopeGrant
