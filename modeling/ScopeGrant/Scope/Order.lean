import ScopeGrant.Scope.Basic

/-!
# The order in which dependencies are written

Dependencies are written and compared in the order of their values, character by character and by
code point.
-/

namespace ScopeGrant.Scope

/-- Whether one scope is written before, or may stand beside, another one. -/
def valueLE (a b : Scope) : Bool :=
  a.value ≤ b.value

/-- The dependencies of a scope in the order of their values. -/
def sorted (s : Scope) : List Scope :=
  s.dependencies.mergeSort valueLE

theorem sorted_perm (s : Scope) : s.sorted.Perm s.dependencies :=
  List.mergeSort_perm _ _

@[simp] theorem mem_sorted {s d : Scope} : d ∈ s.sorted ↔ d ∈ s.dependencies :=
  s.sorted_perm.mem_iff

@[simp] theorem sizeList_sorted (s : Scope) : sizeList s.sorted = sizeList s.dependencies :=
  sizeList_perm s.sorted_perm

@[simp] theorem length_sorted (s : Scope) : s.sorted.length = s.dependencies.length :=
  s.sorted_perm.length_eq

@[simp] theorem sorted_eq_nil_iff {s : Scope} : s.sorted = [] ↔ s.dependencies = [] := by
  rw [← List.length_eq_zero_iff, length_sorted, List.length_eq_zero_iff]

end ScopeGrant.Scope
