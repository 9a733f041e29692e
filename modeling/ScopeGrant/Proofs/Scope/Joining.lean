import Mathlib
import ScopeGrant.Proofs.Scope.Acceptance
import ScopeGrant.Proofs.Scope.Builder

/-!
# Joining is reading in brackets

A scope is built from a value and the scopes that a text holds, or it is read from the value with
this text in brackets. Building searches the merged trees for the value, while reading finds it in
the text before anything is merged. Both look for a chain that holds the value, and merging keeps
chains, so both succeed on the same texts. A text that can be read on its own has no cycle, and so
the cycle that the brackets bring about is always one on the value before them.
-/

namespace ScopeGrant.Scope

theorem addDependencies_leaf_iff {v : String} {ds : List Scope} {n : Scope} (h : Clear [] ds) :
    (leaf v false).addDependencies (ds.map collapse) = .ok n ↔
      Clear [v] ds ∧ n = (mk v false ds).collapse := by
  have howner := clear_owner_iff (v := v) (clear_map_collapse.2 h)
  rw [clear_map_collapse] at howner
  rw [addDependencies_eq_ok_iff, howner, ← setDependencies_normalize]
  rfl

theorem parse_bracketed_iff {v t : String} {ds : List Scope} (hv : IsValue v)
    (h : Expression ds t.toList) (hne : ds ≠ []) (hclear : Clear [] ds) :
    (∀ n, Scope.parse (v ++ "[" ++ t ++ "]") = .ok [n] ↔
      Clear [v] ds ∧ n = (mk v false ds).collapse) ∧
    (¬ Clear [v] ds → ∃ path, Scope.parse (v ++ "[" ++ t ++ "]") = .error (.cycle v path)) := by
  have hexpr : Expression [mk v false ds] (v ++ "[" ++ t ++ "]").toList := by
    simpa [heading] using Expression.row isGap_nil (h.bracketed hne hv false) isGap_nil
  have htop : firstCycleList? [] [mk v false ds] = firstCycleList? [v] ds := by
    simp [firstCycle?]
  have hnone : firstCycleList? [v] ds = none ↔ Clear [v] ds :=
    firstCycleList?_eq_none_iff (List.nodup_singleton v)
  rcases Parser.parse_of_expression hexpr with ⟨owners, w, hcycle, hread⟩ | ⟨hfree, hread⟩
  · rw [htop] at hcycle
    have hnot : ¬ Clear [v] ds := by
      rw [← hnone, hcycle]
      exact Option.some_ne_none _
    -- the text in the brackets has no cycle of its own, so this one comes back to `v`
    have hw : w ∈ [v] := by
      have hbelow := (firstCycleList?_eq_none_iff List.nodup_nil).2 hclear
      exact mem_of_firstCycleList? hbelow hcycle
    rw [hread, List.mem_singleton.1 hw]
    simp [hnot]
  · rw [htop, hnone] at hfree
    rw [hread]
    simp [hfree, eq_comm]

/-- Building a scope from a value and the scopes of a text gives just the scope that is read from
the value with this text in brackets, the stored order of the dependencies included. If there is no
such scope, both fail with a cycle on the value. -/
theorem addDependencies_eq_parse_bracketed (v t : String) (ds : List Scope) (hv : IsValue v)
    (ht : Scope.parse t = .ok ds) (hne : ds ≠ []) :
    (∀ n, (Scope.new v >>= (·.addDependencies ds)) = .ok n ↔
      Scope.parse (v ++ "[" ++ t ++ "]") = .ok [n]) ∧
    ((∃ n, (Scope.new v >>= (·.addDependencies ds)) = .ok n) ∨
      ∃ built read, (Scope.new v >>= (·.addDependencies ds)) = .error (.cycle v built) ∧
        Scope.parse (v ++ "[" ++ t ++ "]") = .error (.cycle v read)) := by
  obtain ⟨es, hexpr, hclear, rfl⟩ := Parser.parse_eq_ok_iff.1 ht
  have hes : es ≠ [] := by simpa using hne
  obtain ⟨hread, hcycle⟩ := parse_bracketed_iff hv hexpr hes hclear
  have hnew : Scope.new v = .ok (leaf v false) := new_eq_ok_iff.2 ⟨hv, rfl⟩
  rw [hnew, ok_bind]
  refine ⟨fun n => (addDependencies_leaf_iff hclear).trans (hread n).symm, ?_⟩
  cases hbuilt : (leaf v false).addDependencies (es.map collapse) with
  | ok n => exact Or.inl ⟨n, rfl⟩
  | error e =>
    right
    obtain ⟨built, rfl⟩ := exists_path_of_addDependencies hbuilt
    have hnot : ¬ Clear [v] es := by
      intro hfree
      rw [(addDependencies_leaf_iff hclear).2 ⟨hfree, rfl⟩] at hbuilt
      cases hbuilt
    obtain ⟨read, hread⟩ := hcycle hnot
    exact ⟨built, read, rfl, hread⟩

def mergedTerms : List Scope :=
  [mk "b" false [leaf "d" false, leaf "c" true], mk "b" true [leaf "c" false]]

/-- Two dependencies, of which the second one leads back to `a`. -/
def cyclicTerms : List Scope :=
  [mk "b" false [leaf "c" false], mk "b" false [mk "c" false [leaf "a" false]]]

/-- A text whose terms are merged below the value, and one in which the value stands again, in a
list that is merged with another one when the text is read. -/
theorem addDependencies_eq_parse_bracketed_of_merged :
    IsValue "a" ∧
    Scope.parse "b[d *c] *b[c]" = .ok mergedTerms ∧
    Scope.parse "a[b[d *c] *b[c]]" =
      .ok [mk "a" false [mk "b" false [leaf "d" false, leaf "c" false]]] ∧
    Scope.parse "b[c] b[c[a]]" = .ok cyclicTerms ∧
    ∃ path, Scope.parse "a[b[c] b[c[a]]]" = .error (.cycle "a" path) := by
  have hvalue : IsValue "a" := by decide
  have hfirst : Scope.parse "b[d *c] *b[c]" = .ok mergedTerms := by cbv
  have hsecond : Scope.parse "b[c] b[c[a]]" = .ok cyclicTerms := by cbv
  have hbuilt : (Scope.new "a" >>= (·.addDependencies mergedTerms)) =
      .ok (mk "a" false [mk "b" false [leaf "d" false, leaf "c" false]]) := by cbv
  have hrefused : ∀ n, (Scope.new "a" >>= (·.addDependencies cyclicTerms)) ≠ .ok n := by
    intro n hn
    have herror : (Scope.new "a" >>= (·.addDependencies cyclicTerms)) =
        .error (.cycle "a" ["a", "b", "c", "a"]) := by cbv
    rw [herror] at hn
    cases hn
  refine ⟨hvalue, hfirst, ?_, hsecond, ?_⟩
  · exact ((addDependencies_eq_parse_bracketed "a" _ _ hvalue hfirst (List.cons_ne_nil _ _)).1 _).1
      hbuilt
  · rcases (addDependencies_eq_parse_bracketed "a" _ _ hvalue hsecond (List.cons_ne_nil _ _)).2 with
      ⟨n, hn⟩ | ⟨built, read, -, hread⟩
    · exact absurd hn (hrefused n)
    · exact ⟨read, hread⟩

end ScopeGrant.Scope
