import ScopeGrant.Requirement.Set
import ScopeGrant.Settings.Basic

/-!
# Requirement sets from settings

The scopes that settings list for the resource servers make a requirement set. They are read with
the parser of the settings, whether or not the settings have been checked.
-/

namespace ScopeGrant.Requirements

/-- The scopes of the expressions that are listed for a server. -/
def readListed (parser : Parser) (server : String) : List String → Except SettingsError (List Scope)
  | [] => .ok []
  | listed :: rest => do
    let scopes ← (parser.parse listed).mapError (.invalidScope .collected server listed)
    return scopes ++ (← readListed parser server rest)

/-- The requirement set of settings. Every server gets an entry, even one that requires nothing. -/
def ofSettings (s : Settings) : Except SettingsError Requirements :=
  s.servers.toList.foldlM (fun q (server, listed) => do
    return q.append server (← readListed s.parser server listed)) {}

end ScopeGrant.Requirements
