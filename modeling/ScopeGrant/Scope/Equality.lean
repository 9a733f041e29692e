import ScopeGrant.Scope.Order

/-!
# Equality of scopes

Two scopes are equal when their values and markers agree and their dependencies are equal once both
lists stand in the order of their values. Pairs that remain to be compared wait on a list.
-/

namespace ScopeGrant.Scope

/-- Whether all pairs hold equal scopes. -/
def equalLoop : List (Scope × Scope) → Bool
  | [] => true
  | (a, b) :: pending =>
    if a.value == b.value && a.optional == b.optional &&
        a.dependencies.length == b.dependencies.length then
      equalLoop (a.sorted.zip b.sorted ++ pending)
    else false
termination_by pending => sizeList (pending.map Prod.fst)
decreasing_by
  rename_i h
  have hlen : a.sorted.length ≤ b.sorted.length := by
    simp only [Bool.and_eq_true, beq_iff_eq] at h
    simp [h.2]
  simp [List.map_fst_zip hlen, size_eq a]

/-- Whether two scopes are equal, whatever the stored order of their dependencies. -/
def equal (a b : Scope) : Bool :=
  equalLoop [(a, b)]

/-- Whether two lists hold equal scopes at equal places. -/
def equalLists : List Scope → List Scope → Bool
  | [], [] => true
  | a :: as, b :: bs => a.equal b && equalLists as bs
  | _, _ => false

end ScopeGrant.Scope
