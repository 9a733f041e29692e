import ScopeGrant.Text.Taken

/-!
# Reading documents

A document is read piece by piece from its front. Spaces and tabs do not count between the parts of
a line; within a value that may run over several lines, line ends and comments do not count either.
-/

namespace ScopeGrant.Toml

open Text (Taken)

/-- A way of taking a value from the front of a text. -/
abbrev Reader (α : Type) := (cs : List Char) → Option (Taken cs α)

/-- Whether a character is a space or a tab. -/
def isSpace (c : Char) : Bool :=
  c == ' ' || c == '\t'

/-- Whether a character may stand for itself within a line: all but the controls, of which only the
tab may. -/
def isLineChar (c : Char) : Bool :=
  c == '\t' || (' ' ≤ c && c != '\x7f')

/-- Take one character. -/
def sign (c : Char) : Reader Unit
  | d :: _ => if d == c then some (.first ()) else none
  | [] => none

/-- Take a line end. -/
def lineEnd : Reader Unit
  | '\n' :: _ => some (.first ())
  | '\r' :: '\n' :: _ => some (.behind (.first ()))
  | _ => none

/-! ## What does not count -/

/-- What follows the spaces and tabs at the front of a text. -/
def dropSpace (cs : List Char) : List Char :=
  cs.dropWhile isSpace

theorem length_dropSpace (cs : List Char) : (dropSpace cs).length ≤ cs.length :=
  (List.dropWhile_sublist _).length_le

/-- Take a value behind any spaces and tabs. -/
def behindSpace {α : Type} (read : Reader α) : Reader α := fun cs =>
  (read (dropSpace cs)).map (·.widen (length_dropSpace cs))

/-- What follows the spaces, tabs, line ends and comments at the front of a text. -/
def dropGaps : List Char → List Char
  | ' ' :: rest => dropGaps rest
  | '\t' :: rest => dropGaps rest
  | '\n' :: rest => dropGaps rest
  | '\r' :: '\n' :: rest => dropGaps rest
  | '#' :: rest => dropGaps (rest.dropWhile isLineChar)
  | rest => rest
termination_by cs => cs.length
decreasing_by
  · exact Nat.lt_succ_self _
  · exact Nat.lt_succ_self _
  · exact Nat.lt_succ_self _
  · exact Nat.lt_succ_of_lt (Nat.lt_succ_self _)
  · exact Nat.lt_succ_of_le (List.dropWhile_sublist _).length_le

theorem length_dropGaps (cs : List Char) : (dropGaps cs).length ≤ cs.length := by
  fun_induction dropGaps cs with
  | case5 rest ih =>
    exact Nat.le_succ_of_le (Nat.le_trans ih (List.dropWhile_sublist _).length_le)
  | _ => simp_all <;> omega

/-- Take a value behind any spaces, tabs, line ends and comments. -/
def behindGaps {α : Type} (read : Reader α) : Reader α := fun cs =>
  (read (dropGaps cs)).map (·.widen (length_dropGaps cs))

end ScopeGrant.Toml
