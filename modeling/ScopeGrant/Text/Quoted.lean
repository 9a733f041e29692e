import ScopeGrant.Text.Digit
import ScopeGrant.Text.Hidden

/-!
# Quoted texts

A text inside a message stands between double quotes. Quotes and backslashes in it are escaped, the
common controls have escapes of their own, and other characters that do not show by themselves are
written as their code points in braces.
-/

namespace ScopeGrant.Text

/-- A character inside a quoted text. -/
def quotedChar (c : Char) : String :=
  if c == '"' then "\\\""
  else if c == '\\' then "\\\\"
  else if c == '\n' then "\\n"
  else if c == '\r' then "\\r"
  else if c == '\t' then "\\t"
  else if c == '\x00' then "\\0"
  else if isHidden c then "\\u\x7b" ++ hexDigits c.toNat ++ "\x7d"
  else c.toString

/-- A text between double quotes. -/
def quoted (text : String) : String :=
  "\"" ++ String.join (text.toList.map quotedChar) ++ "\""

end ScopeGrant.Text
