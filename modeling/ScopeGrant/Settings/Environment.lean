import ScopeGrant.Numeric.Reading
import ScopeGrant.Numeric.Word
import ScopeGrant.Settings.KeyPath

/-!
# Settings from environment variables

A variable counts if its name begins with `CONSENT_SCOPES__`, in any case. The rest of the name is a
path in lower case, with two underscores between its segments. The value is a truth value or a
number if it can be read as one, and a text otherwise.
-/

namespace ScopeGrant.Environment

open Text (integer?)

/-- A character in lower case. Besides the capital letters of ASCII only the sign for Kelvin has a
lower case that is a letter of ASCII; all other characters are left alone, for no path holds them in
either case. -/
def lower (c : Char) : Char :=
  if c == '\u212A' then 'k' else c.toLower

/-- What the name of a variable that counts begins with, in lower case. -/
def lead : List Char :=
  "consent_scopes__".toList

/-- A row of characters with points in place of double underscores. -/
def pointed : List Char → List Char
  | '_' :: '_' :: rest => '.' :: pointed rest
  | c :: rest => c :: pointed rest
  | [] => []

/-- The name of the setting that a variable gives, if it counts. -/
def settingName? (variableName : String) : Option String :=
  let chars := variableName.toList.map lower
  if lead.isPrefixOf chars then some (String.ofList (pointed (chars.drop lead.length))) else none

/-- The setting that the value of a variable stands for. -/
def setting (value : String) : Setting :=
  let chars := value.toList
  let word := String.ofList (chars.map Char.toLower)
  if word = "true" then .boolean true
  else if word = "false" then .boolean false
  else
    match (integer? chars).bind signed?, Binary64.read? chars with
    | some n, _ => .integer n
    | none, some x => .number x
    | none, none => .text value

/-- The settings that variables give, by the names of their paths. -/
def settings (environment : List (String × String)) : List (String × Setting) :=
  environment.filterMap fun (name, value) => do return (← settingName? name, setting value)

end ScopeGrant.Environment
