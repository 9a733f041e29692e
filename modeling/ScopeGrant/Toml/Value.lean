import ScopeGrant.Toml.Scalar
import ScopeGrant.Toml.Table

/-!
# Values of a document

A value is a text, a single value, a list in square brackets or a table in braces. Line ends and
comments may stand between the parts of a list or table, and a comma behind the last of them. Values
may be nested only so deep.
-/

namespace ScopeGrant.Toml

open Text (Taken)

/-- Take a row of parts with commas between them, and what closes it. `add` puts a part to the ones
before it and may refuse it. -/
def parts {α σ : Type} (close : Char) (part : Reader α) (add : σ → α → Option σ) (done : σ)
    (cs : List Char) : Option (Taken cs σ) :=
  match behindGaps (sign close) cs with
  | some closed => some (closed.map fun _ => done)
  | none =>
    match behindGaps part cs with
    | none => none
    | some taken =>
      match add done taken.value with
      | none => none
      | some next =>
        match behindGaps (sign ',') taken.rest with
        | some comma =>
          (parts close part add next comma.rest).map fun all =>
            taken.followedBy (comma.followedBy all)
        | none =>
          (behindGaps (sign close) taken.rest).map fun closed =>
            taken.followedBy (closed.map fun _ => next)
termination_by cs.length
decreasing_by exact Nat.lt_trans comma.shorter taken.shorter

/-- Take a key, an equals sign and a value, with what does not count between them skipped by
`behind`. -/
def assignment (behind : {α : Type} → Reader α → Reader α) (value : Reader Setting) :
    Reader (Key × Setting) := fun cs =>
  match key cs with
  | none => none
  | some key =>
    match behind (sign '=') key.rest with
    | none => none
    | some equals =>
      (behind value equals.rest).map fun taken =>
        key.followedBy (equals.followedBy (taken.map fun setting => (key.value, setting)))

/-- Take a value with at most `depth` lists and tables around its parts. -/
def value : (depth : Nat) → Reader Setting
  | _, [] => none
  | depth, c :: rest =>
    if c == '"' || c == '\x27' then (quoted (c :: rest)).map (·.map .text)
    else if c == '[' then
      match depth with
      | 0 => none
      | depth + 1 =>
        (parts ']' (value depth) (fun items item => some (item :: items)) [] rest).map fun taken =>
          (taken.map fun items => .list items.reverse).behind
    else if c == '\x7b' then
      match depth with
      | 0 => none
      | depth + 1 =>
        (parts '\x7d' (assignment behindGaps (value depth))
          (fun entries pair => assign pair.1 pair.2 entries) [] rest).map fun taken =>
            (taken.map fun entries => .table (settingsOf entries)).behind
    else scalar (c :: rest)

/-- How deep values may be nested. -/
def maxNesting : Nat := 80

end ScopeGrant.Toml
