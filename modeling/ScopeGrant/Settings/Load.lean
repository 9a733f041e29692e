import ScopeGrant.Settings.Decode
import ScopeGrant.Settings.Environment
import ScopeGrant.Settings.Files
import ScopeGrant.Toml.Document

/-!
# Loading settings

Settings are gathered in layers: a document, and over it the environment. Names at the outermost
level of a document, like those of variables, may be paths. What is gathered is given its meaning
and then checked, so that settings that were loaded are in order.
-/

namespace ScopeGrant

namespace Setting

/-- Lay settings that are named by paths over another one, one after the other. -/
def layNamed (named : List (String × Setting)) (base : Setting) : Setting :=
  named.foldl (fun base (name, setting) => layAt setting (KeyPath.ofName name) base) base

end Setting

/-- What settings are loaded from. -/
structure Surroundings where
  /-- The directory where paths begin. -/
  work : FileArea := {}
  /-- The directory of the user. -/
  home : FileArea := {}
  /-- The environment variables with their values. -/
  environment : List (String × String) := []

namespace Settings

/-- The settings that a document and variables give, once they are checked. -/
def ofLayers (document : Option String) (environment : List (String × String)) :
    Except SettingsError Settings := do
  let some entries := (document.map Toml.read?).getD (some []) | throw .unreadable
  let gathered := Setting.layNamed (Environment.settings environment)
    (Setting.layNamed entries (.table []))
  let some settings := ofEntries? gathered.entries | throw .unreadable
  settings.check
  return settings

/-- The settings in a document. -/
def ofDocument (document : String) : Except SettingsError Settings :=
  ofLayers (some document) []

/-- The paths at which a document is looked for, and the directory in which each begins. -/
def defaultPaths (s : Surroundings) : List (FileArea × String) :=
  [(s.work, "consent-scopes.toml"), (s.work, ".consent-scopes.toml"),
   (s.home, ".config/consent-scopes/config.toml")]

/-- The document at a path where something is known to be. A mark of byte order at its front does
not count. -/
def documentAt (area : FileArea) (path : String) : Except SettingsError String :=
  match area.document? path with
  | some text => .ok (String.ofList (Toml.dropMark text.toList))
  | none => .error .unreadable

/-- The document to load. One at a path that is asked for must be there; otherwise it is the first
one at a default path, if any. -/
def document (s : Surroundings) : (path : Option String) → Except SettingsError (Option String)
  | some path =>
    if (s.work.place? path).isNone then .error (.notFound path)
    else some <$> documentAt s.work path
  | none =>
    match (defaultPaths s).find? fun (area, path) => (area.place? path).isSome with
    | none => .ok none
    | some (area, path) => some <$> documentAt area path

/-- Load settings, from the document at a path or at the default paths, and from variables. -/
def load (s : Surroundings) (path : Option String) : Except SettingsError Settings := do
  ofLayers (← document s path) s.environment

end Settings

end ScopeGrant
