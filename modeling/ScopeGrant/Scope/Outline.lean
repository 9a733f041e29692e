import ScopeGrant.Scope.Basic

/-!
# Outlines

The outline of a list of scopes has a line for every scope in it: each scope comes before its
dependencies, which follow in stored order, and its line says how deep it lies.
-/

namespace ScopeGrant.Scope

/-- A line of an outline. -/
structure OutlineLine where
  /-- How many scopes lie above this one. -/
  level : Nat
  /-- Whether it carries the optional marker. -/
  optional : Bool
  /-- Its value. -/
  value : String
deriving Repr, DecidableEq, Inhabited

/-- The lines in `written`, newest first, followed by those of the pending scopes. -/
def outlineLoop (written : List OutlineLine) : List (Scope × Nat) → List OutlineLine
  | [] => written.reverse
  | (s, level) :: pending =>
    outlineLoop (⟨level, s.optional, s.value⟩ :: written)
      (s.dependencies.map (·, level + 1) ++ pending)
termination_by pending => sizeList (pending.map Prod.fst)
decreasing_by
  simp [Function.comp_def, size_eq s]

/-- The outline of a list of scopes. -/
def outline (scopes : List Scope) : List OutlineLine :=
  outlineLoop [] (scopes.map (·, 0))

end ScopeGrant.Scope
