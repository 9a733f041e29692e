import ScopeGrant.Numeric.Word
import ScopeGrant.Settings.Basic
import ScopeGrant.Settings.Setting
import ScopeGrant.Text.Digit

/-!
# The meaning of settings as they are found

Settings get their meaning by name: `parser.max_depth` bounds the nesting, and
`resource_servers.NAME.scopes` lists the scopes that a server requires. Names that are not known do
not count. A list may stand for a table whose fields it holds in order. Single values are taken
generously: a number may be written as a text, and a scope as a number.
-/

namespace ScopeGrant

namespace Setting

open Text (natural?)

/-- The field of a setting with a name, and the place at which a list holds it. A field that is not
there is `some none`; `none` is a setting that has no fields. -/
def field? (name : String) (place : Nat) : Setting → Option (Option Setting)
  | table entries => some (Entries.get? name entries)
  | list items => some items[place]?
  | _ => none

/-- The unsigned integer that a text stands for: a truth word, or decimal digits that may have a
plus sign. -/
def unsignedOfText? (value : String) : Option Nat :=
  let chars := value.toList
  let word := String.ofList (chars.map Char.toLower)
  if word ∈ ["true", "on", "yes"] then some 1
  else if word ∈ ["false", "off", "no"] then some 0
  else do
    let digits :=
      match chars with
      | '+' :: digits => digits
      | digits => digits
    let n ← natural? digits
    if n ≤ maxUnsigned then some n else none

/-- The unsigned integer that a setting stands for, or `some none` for an absent one. -/
def unsigned? : Setting → Option (Option Nat)
  | absent => some none
  | boolean b => some (some b.toNat)
  | integer n => if n < 0 then none else some (some n.toNat)
  | number x => some (some (x.roundToNat maxUnsigned))
  | text value => (unsignedOfText? value).map some
  | list _ => none
  | table _ => none

/-- The text that a single value stands for. -/
def text? : Setting → Option String
  | boolean b => some (toString b)
  | integer n => some (toString n)
  | number x => some x.text
  | text value => some value
  | _ => none

/-- The texts that a list stands for. -/
def texts? : Setting → Option (List String)
  | list items => items.mapM text?
  | _ => none

/-- The bound that the settings of the parser give. -/
def maxDepth? (setting : Setting) : Option (Option Nat) := do
  match ← setting.field? "max_depth" 0 with
  | none => some none
  | some bound => bound.unsigned?

/-- The required scopes that the settings of a server give. -/
def scopes? (setting : Setting) : Option (List String) := do
  match ← setting.field? "scopes" 0 with
  | none => some []
  | some scopes => scopes.texts?

/-- The required scopes of the servers in a table. -/
def servers? : Setting → Option (List (String × List String))
  | table entries => entries.mapM fun (name, server) => do return (name, ← server.scopes?)
  | _ => none

end Setting

namespace Settings

/-- The settings in a table, if each of them has a kind that can be used. -/
def ofEntries? (entries : Entries Setting) : Option Settings := do
  let maxDepth ←
    match entries.get? "parser" with
    | none => some none
    | some parser => parser.maxDepth?
  let servers ←
    match entries.get? "resource_servers" with
    | none => some []
    | some servers => servers.servers?
  return { maxDepth, servers := .ofList servers }

end Settings

end ScopeGrant
