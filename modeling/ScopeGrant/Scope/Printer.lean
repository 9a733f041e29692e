import ScopeGrant.Scope.Order

/-!
# Writing scope expressions

The canonical text of a scope is a star if it is optional, its value, and, if it has dependencies,
brackets around their canonical texts in the order of their values, separated by single spaces. It
is written from left to right with the pieces still to come on a list: scopes, and the spaces and
closing brackets that go between and behind them.
-/

namespace ScopeGrant.Scope

/-- A piece of canonical text that is still to be written. -/
inductive Piece where
  /-- A scope with all its dependencies. -/
  | scope (s : Scope)
  /-- A text as it stands. -/
  | text (t : String)

namespace Piece

/-- How many pieces are taken from the list at most until this one is written: a scope and its
closing bracket, and for each scope below it the same and the space in front of it. -/
def weight : Piece → Nat
  | scope s => 3 * sizeList s.dependencies + 2
  | text _ => 1

/-- The weight of a row of pieces. -/
def weightList : List Piece → Nat
  | [] => 0
  | p :: rest => p.weight + weightList rest

/-- The scopes of a list as pieces, with a space between any two neighbours. -/
def row (ds : List Scope) : List Piece :=
  (ds.map scope).intersperse (text " ")

@[simp] theorem row_nil : row [] = [] := rfl

@[simp] theorem row_singleton (d : Scope) : row [d] = [scope d] := rfl

theorem row_cons_cons (d e : Scope) (ds : List Scope) :
    row (d :: e :: ds) = scope d :: text " " :: row (e :: ds) := rfl

theorem weightList_append (xs ys : List Piece) :
    weightList (xs ++ ys) = weightList xs + weightList ys := by
  induction xs with
  | nil => simp [weightList]
  | cons x xs ih => simp [weightList, ih, Nat.add_assoc]

theorem weightList_row_le (ds : List Scope) : weightList (row ds) ≤ 3 * sizeList ds := by
  induction ds with
  | nil => exact Nat.le_refl _
  | cons d ds ih =>
    have hsize := d.size_eq
    cases ds with
    | nil =>
      simp only [row_singleton, weightList, weight, sizeList_cons, sizeList_nil]
      omega
    | cons e ds =>
      rw [row_cons_cons, sizeList_cons]
      simp only [weightList, weight]
      omega

end Piece

/-- The star of an optional scope. -/
def mark (s : Scope) : String :=
  if s.optional then "*" else ""

/-- Write the pieces in order behind `written`. -/
def renderLoop (written : String) : List Piece → String
  | [] => written
  | .text t :: rest => renderLoop (written ++ t) rest
  | .scope s :: rest =>
    let head := written ++ s.mark ++ s.value
    if s.dependencies.isEmpty then renderLoop head rest
    else renderLoop (head ++ "[") (Piece.row s.sorted ++ .text "]" :: rest)
termination_by pieces => Piece.weightList pieces
decreasing_by
  · simp [Piece.weightList, Piece.weight]
  · simp [Piece.weightList, Piece.weight]
  · have hrow := Piece.weightList_row_le s.sorted
    rw [sizeList_sorted] at hrow
    simp [Piece.weightList, Piece.weight, Piece.weightList_append]; omega

/-- The canonical text of a scope. -/
def render (s : Scope) : String :=
  renderLoop "" [.scope s]

/-- The canonical texts of a list of scopes, separated by spaces. -/
def renderAll (scopes : List Scope) : String :=
  String.intercalate " " (scopes.map render)

end ScopeGrant.Scope
