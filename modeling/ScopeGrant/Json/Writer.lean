import ScopeGrant.Text.Quoted

/-!
# Writing JSON texts

Values are written without blanks. In a text only the quote, the backslash and the control
characters of ASCII are escaped; all other characters stand for themselves.
-/

namespace ScopeGrant.Json

/-- A character inside a text. -/
def escapeChar (c : Char) : String :=
  if c == '"' then "\\\""
  else if c == '\\' then "\\\\"
  else if c == '\x08' then "\\b"
  else if c == '\x0c' then "\\f"
  else if c == '\n' then "\\n"
  else if c == '\r' then "\\r"
  else if c == '\t' then "\\t"
  else if c < '\x10' then "\\u000" ++ Text.hexDigits c.toNat
  else if c < ' ' then "\\u00" ++ Text.hexDigits c.toNat
  else c.toString

/-- A text. -/
def writeText (s : String) : String :=
  "\"" ++ String.join (s.toList.map escapeChar) ++ "\""

/-- An optional value; one that is absent is written as `null`. -/
def writeOption {α : Type} (write : α → String) : Option α → String
  | none => "null"
  | some a => write a

/-- A truth value. -/
def writeBool (b : Bool) : String :=
  if b then "true" else "false"

/-- An array of values that are written already. -/
def writeArray (items : List String) : String :=
  "[" ++ String.intercalate "," items ++ "]"

/-- An object of fields whose values are written already. -/
def writeObject (fields : List (String × String)) : String :=
  let members := fields.map fun (name, value) => writeText name ++ ":" ++ value
  "\x7b" ++ String.intercalate "," members ++ "\x7d"

end ScopeGrant.Json
