import ScopeGrant.Proofs.Scope.Depth
import ScopeGrant.Proofs.Scope.Equality
import ScopeGrant.Proofs.Scope.Printer
import ScopeGrant.Proofs.Scope.Reachable

/-!
# Walks with a stack are structural recursions

Copying a scope, measuring it and writing it each keep what is still to be done on a list of their
own, because a tree may be deeper than any call stack. Each of the three nevertheless comes to what
a recursion over the tree would come to. Copying opens and closes scopes and ends with the tree
itself (`copy_eq`), measuring counts one level more than there are in the deepest dependency
(`depth_eq`), and writing puts the texts of the dependencies in brackets (`render_eq`). These stand
in the order of their values, and no two of them in the same place, since siblings differ.
-/

namespace ScopeGrant.Scope

/-- Where siblings differ, their values ascend strictly in the order in which they are written. -/
theorem pairwise_value_lt_sorted {s : Scope} (h : s.Tidy) :
    s.sorted.Pairwise fun d e => d.value < e.value := by
  have hnodup : (s.sorted.map value).Nodup :=
    (s.sorted_perm.map value).nodup_iff.2 (tidy_iff.1 h).1
  have hne : s.sorted.Pairwise fun d e => d.value ≠ e.value := List.pairwise_map.1 hnodup
  refine (s.pairwise_sorted.and hne).imp ?_
  rintro d e ⟨hle, hdiffer⟩
  rw [valueLE, decide_eq_true_eq] at hle
  exact lt_of_le_of_ne hle hdiffer

/-- Of a scope that can be made, a copy is the same tree, the stored order of dependencies included.
It has one level more than the deepest of its dependencies. Its canonical text is the star if it is
optional, its value, and, if it has dependencies, brackets around their canonical texts, which stand
in strictly ascending order of their values with single spaces between them. -/
theorem walks_recurse_of_reachable {s : Scope} (h : s.Reachable) :
    s.copy = s ∧ s.depth = 1 + (s.dependencies.map depth).max?.getD 0 ∧
    ∃ ds : List Scope, ds.Perm s.dependencies ∧ (ds.Pairwise fun d e => d.value < e.value) ∧
      s.render = (if s.optional then "*" else "") ++ s.value ++
        if ds.isEmpty then "" else "[" ++ " ".intercalate (ds.map render) ++ "]" := by
  refine ⟨copy_eq s, depth_eq s, s.sorted, s.sorted_perm, ?_, ?_⟩
  · exact pairwise_value_lt_sorted h.wellFormed.tidy
  · have hempty : s.sorted.isEmpty = s.dependencies.isEmpty := by
      rw [Bool.eq_iff_iff, List.isEmpty_iff, List.isEmpty_iff, sorted_eq_nil_iff]
    rw [hempty]
    exact render_eq s

def backwardDependencies : List Scope :=
  [mk "c" true [leaf "e" false, mk "b" false [leaf "d" false]], leaf "b" false]

/-- A scope whose dependencies are stored against the order of their values at two levels, the
deepest one first. -/
theorem walks_recurse_of_read :
    (mk "a" false backwardDependencies).Reachable ∧
    (mk "a" false backwardDependencies).copy = mk "a" false backwardDependencies ∧
    4 = 1 + (backwardDependencies.map depth).max?.getD 0 ∧
    ∃ ds : List Scope,
      ds.Perm backwardDependencies ∧
      (ds.Pairwise fun d e => d.value < e.value) ∧
      "a[b *c[b[d] e]]" = (if false then "*" else "") ++ "a" ++
        if ds.isEmpty then "" else "[" ++ " ".intercalate (ds.map render) ++ "]" := by
  have hread : Scope.parse "a[*c[e b[d]] b]" = .ok [mk "a" false backwardDependencies] := by cbv
  have hdepth : (mk "a" false backwardDependencies).depth = 4 := by cbv
  have hrender : (mk "a" false backwardDependencies).render = "a[b *c[b[d] e]]" := by cbv
  have hreachable := Reachable.parse hread (List.mem_singleton_self _)
  have hwalks := walks_recurse_of_reachable hreachable
  rw [hdepth, hrender] at hwalks
  exact ⟨hreachable, hwalks⟩

end ScopeGrant.Scope
