import ScopeGrant.Proofs.Scope.Gathering

/-!
# Merging in parts and level by level

The reader merges a row of terms when its brackets close, and a scope that is given dependencies one
after the other merges them as they come, so one list may be merged many times in pieces. This makes
no difference: a part of a list may be merged before the whole of it is, at its front or at its end,
and what has been merged stays as it is. Below every row of values, the merged list has the values
that stand there in the list, each once and in the order in which they occur first; this is seen by
going down along the row, because what lies beneath a merged value is again merged
(`level_normalize`).
-/

namespace ScopeGrant.Scope

/-- The scopes that stand directly below a row of values that leads down from the list, in the order
of writing. -/
def level : List Scope → List String → List Scope
  | ds, [] => ds
  | ds, v :: p => level (beneath ds v) p

section Level

variable {as bs ds : List Scope}

/-- Below each row of values, a merged list is what stands there in the list, merged. -/
theorem level_normalize (hds : ∀ d ∈ ds, d.Tidy) (p : List String) :
    level (normalize ds) p = normalize (level ds p) := by
  induction p generalizing ds with
  | nil => rfl
  | cons v p ih =>
    rw [level, level, beneath_normalize hds]
    exact ih (tidy_of_mem_beneath hds)

/-- At each level the values of a merged list stand in the order of their first occurrences. -/
theorem map_value_level_normalize (hds : ∀ d ∈ ds, d.Tidy) (p : List String) :
    (level (normalize ds) p).map value = ((level ds p).map value).eraseDups := by
  rw [level_normalize hds, map_value_normalize]

theorem normalize_normalize_append (has : ∀ a ∈ as, a.Tidy) (hbs : ∀ b ∈ bs, b.Tidy) :
    normalize (normalize as ++ bs) = normalize (as ++ bs) := by
  have hfront := normalize_append_normalize_append (List.forall_mem_nil _) has hbs
  rwa [List.nil_append, List.nil_append] at hfront

theorem normalize_append_normalize (has : ∀ a ∈ as, a.Tidy) (hbs : ∀ b ∈ bs, b.Tidy) :
    normalize (as ++ normalize bs) = normalize (as ++ bs) := by
  have hend := normalize_append_normalize_append has hbs (List.forall_mem_nil _)
  rwa [List.append_nil, List.append_nil] at hend

/-- The loop that merges a list ends with the merged list, after at most two rounds for each scope.
-/
theorem iterate_advance_mergeSiblings (ds : List Scope) :
    merging.advance^[2 * sizeList ds] ([], (mergeSiblings ds).map Merged.task) =
      ((normalize ds).reverse, []) := by
  have hweight : Task.weightList ((mergeSiblings ds).map Merged.task) ≤ 2 * sizeList ds := by
    simpa [mergeSiblings] using weightList_foldl_absorbInto_le ds []
  rw [merging.iterate_advance [] hweight, normalize, settle, Expansion.results,
    List.reverse_reverse]

/-- Merging comes to an end, and a list may be merged in parts: it makes no difference to the merged
list, its stored order included, if the front or the end of the list is merged first. In the merged
list no siblings have the same value at any level, and at each level the values that stand there in
the list are kept in the order of their first occurrences. A list without repeats stays as it is, so
nothing comes of merging twice. -/
theorem normalize_in_parts (has : ∀ a ∈ as, a.Tidy) (hbs : ∀ b ∈ bs, b.Tidy) :
    merging.advance^[2 * sizeList (as ++ bs)] ([], (mergeSiblings (as ++ bs)).map Merged.task) =
      ((normalize (as ++ bs)).reverse, []) ∧
    normalize (normalize as ++ bs) = normalize (as ++ bs) ∧
    normalize (as ++ normalize bs) = normalize (as ++ bs) ∧
    TidyList (normalize (as ++ bs)) ∧
    (∀ p, (level (normalize (as ++ bs)) p).map value =
      ((level (as ++ bs) p).map value).eraseDups) ∧
    (∀ ds, TidyList ds → normalize ds = ds) ∧
    normalize (normalize (as ++ bs)) = normalize (as ++ bs) := by
  have hwhole : ∀ d ∈ as ++ bs, d.Tidy := List.forall_mem_append.2 ⟨has, hbs⟩
  have htidy := tidyList_normalize hwhole
  exact ⟨iterate_advance_mergeSiblings _, normalize_normalize_append has hbs,
    normalize_append_normalize has hbs, htidy, map_value_level_normalize hwhole,
    fun ds hds => normalize_of_nodup hds.1, normalize_of_nodup htidy.1⟩

end Level

def frontPart : List Scope :=
  [mk "b" true [leaf "d" false, leaf "c" true], leaf "e" false]

def backPart : List Scope :=
  [leaf "f" false, mk "b" true [mk "c" false [leaf "g" false], leaf "a" false]]

/-- Two of the parts share a value, and below it another one, which is optional in the one part and
required in the other. -/
theorem normalize_in_parts_of_shared :
    (∀ a ∈ frontPart, a.Tidy) ∧
    (∀ b ∈ backPart, b.Tidy) ∧
    normalize (normalize frontPart ++ backPart) =
      [mk "b" true [leaf "d" false, mk "c" false [leaf "g" false], leaf "a" false],
        leaf "e" false, leaf "f" false] ∧
    (level (normalize (frontPart ++ backPart)) ["b"]).map value = ["d", "c", "a"] := by
  have has : ∀ a ∈ frontPart, a.Tidy := by
    simp [frontPart, tidy_mk, TidyList, leaf]
  have hbs : ∀ b ∈ backPart, b.Tidy := by
    simp [backPart, tidy_mk, TidyList, leaf]
  obtain ⟨-, hfront, -, -, hlevel, -, -⟩ := normalize_in_parts has hbs
  refine ⟨has, hbs, hfront.trans (by cbv), (hlevel ["b"]).trans (by cbv)⟩

end ScopeGrant.Scope
