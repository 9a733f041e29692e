import ScopeGrant.Text.Digit
import ScopeGrant.Toml.Reader

/-!
# Quoted texts of a document

A text stands between double quotes, with escapes, or between single quotes, without any. Three
quotes instead of one allow the text to run over several lines; a line end right behind the opening
quotes does not belong to it, and up to two quotes right before the closing ones do.
-/

namespace ScopeGrant.Toml

open Text (Taken takeHex length_of_takeHex)

/-! ## Escapes -/

/-- The character that a one-letter escape stands for. -/
def escapedChar? (c : Char) : Option Char :=
  if c == 'b' then some '\x08'
  else if c == 't' then some '\t'
  else if c == 'n' then some '\n'
  else if c == 'f' then some '\x0c'
  else if c == 'r' then some '\r'
  else if c == 'e' then some '\x1b'
  else if c == '"' then some '"'
  else if c == '\\' then some '\\'
  else none

/-- The number of digits behind the letter of a hexadecimal escape. -/
def hexCount? (c : Char) : Option Nat :=
  if c == 'x' then some 2
  else if c == 'u' then some 4
  else if c == 'U' then some 8
  else none

/-- What follows the spaces, tabs and line ends at the front of a text. -/
def dropGap : List Char → List Char
  | ' ' :: rest => dropGap rest
  | '\t' :: rest => dropGap rest
  | '\n' :: rest => dropGap rest
  | '\r' :: '\n' :: rest => dropGap rest
  | rest => rest

theorem length_dropGap (cs : List Char) : (dropGap cs).length ≤ cs.length := by
  fun_induction dropGap cs <;> simp_all <;> omega

/-- Take the end of a line behind a backslash, with all blanks that follow. -/
def joinedLines : Reader (List Char) := fun cs => do
  let ended ← lineEnd (cs.dropWhile isSpace)
  return ⟨[], dropGap ended.rest, Nat.lt_of_le_of_lt (length_dropGap _)
    (Nat.lt_of_lt_of_le ended.shorter (List.dropWhile_sublist _).length_le)⟩

/-- Take the letter and the digits of a hexadecimal escape. The digits stand for a character, so not
for half of a surrogate pair. -/
def hexEscape (count : Nat) : Reader (List Char)
  | [] => none
  | _ :: digits =>
    match _h : takeHex 0 count digits with
    | none => none
    | some (n, rest) =>
      if n.isValidChar then some ⟨[Char.ofNat n], rest, Nat.lt_succ_of_le (length_of_takeHex _h)⟩
      else none

/-- Take what stands behind a backslash. -/
def escape (multiline : Bool) : Reader (List Char)
  | [] => none
  | c :: rest =>
    match escapedChar? c, hexCount? c with
    | some e, _ => some (.first [e])
    | none, some count => hexEscape count (c :: rest)
    | none, none => if multiline then joinedLines (c :: rest) else none

/-! ## Bodies -/

/-- Take one character as it stands. -/
def plainChar (multiline : Bool) : Reader (List Char)
  | '\n' :: _ => if multiline then some (.first ['\n']) else none
  | '\r' :: '\n' :: _ => if multiline then some (.behind (.first ['\r', '\n'])) else none
  | c :: _ => if isLineChar c then some (.first [c]) else none
  | [] => none

/-- Take one character, escaped or as it stands. -/
def escapableChar (multiline : Bool) : Reader (List Char)
  | '\\' :: rest => (escape multiline rest).map (·.behind)
  | cs => plainChar multiline cs

/-- Take a closing quote. -/
def closeLine (quote : Char) : Reader (List Char)
  | c :: _ => if c == quote then some (.first []) else none
  | [] => none

/-- Take three closing quotes, and up to two before them that belong to the text. -/
def closeLines (quote : Char) (cs : List Char) : Option (Taken cs (List Char)) :=
  let quotes := min 5 (cs.takeWhile (· == quote)).length
  if h : 3 ≤ quotes then
    some ⟨List.replicate (quotes - 3) quote, cs.drop quotes, by
      have hq : quotes ≤ cs.length :=
        Nat.le_trans (Nat.min_le_right _ _) (List.takeWhile_sublist _).length_le
      simp only [List.length_drop]; omega⟩
  else none

/-- Take the body of a text and what closes it. `found` holds its characters so far, last first. -/
def body (close char : Reader (List Char)) (found : List Char) (cs : List Char) :
    Option (Taken cs String) :=
  match close cs with
  | some closed => some (closed.map fun last => String.ofList (found.reverse ++ last))
  | none =>
    match char cs with
    | none => none
    | some taken =>
      (body close char (taken.value.reverse ++ found) taken.rest).map
        (·.widen (Nat.le_of_lt taken.shorter))
termination_by cs.length
decreasing_by exact taken.shorter

/-- What follows a line end at the front of a text, if there is one. -/
def dropLineEnd : List Char → List Char
  | '\n' :: rest => rest
  | '\r' :: '\n' :: rest => rest
  | rest => rest

theorem length_dropLineEnd (cs : List Char) : (dropLineEnd cs).length ≤ cs.length := by
  unfold dropLineEnd
  split
  · exact Nat.le_succ _
  · exact Nat.le_trans (Nat.le_succ _) (Nat.le_succ _)
  · exact Nat.le_refl _

/-- The way of taking one character of a text between quotes of a kind. -/
def charOf (quote : Char) (multiline : Bool) : Reader (List Char) :=
  if quote == '"' then escapableChar multiline else plainChar multiline

/-- Take a text on one line, behind its opening quote. -/
def lineBody (quote : Char) : Reader String :=
  body (closeLine quote) (charOf quote false) []

/-- Take a text on several lines, behind its opening quotes. -/
def linesBody (quote : Char) : Reader String := fun cs =>
  (body (closeLines quote) (charOf quote true) [] (dropLineEnd cs)).map
    (·.widen (length_dropLineEnd cs))

/-- Take a text between single or double quotes, on one line. -/
def quotedLine : Reader String
  | '"' :: rest => (lineBody '"' rest).map (·.behind)
  | '\x27' :: rest => (lineBody '\x27' rest).map (·.behind)
  | _ => none

/-- Take a text between quotes. -/
def quoted : Reader String
  | '"' :: '"' :: '"' :: rest => (linesBody '"' rest).map (·.behind.behind.behind)
  | '\x27' :: '\x27' :: '\x27' :: rest => (linesBody '\x27' rest).map (·.behind.behind.behind)
  | cs => quotedLine cs

end ScopeGrant.Toml
