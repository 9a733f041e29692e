import ScopeGrant.Proofs.Scope.Sibling

/-!
# What a merged list is made of

Merging is done by a loop that opens a list again only if it has grown. What comes of it can be
said in one equation: there is one scope for each value of the list, in the order in which the
values occur first, and it gathers what all occurrences of its value hold (`normalize_eq`). Nothing
in this depends on how the list came about, so a part of a list may be merged before the whole of it
is (`normalize_append_normalize_append`).
-/

namespace ScopeGrant.Scope

/-! ## First occurrences -/

section Values

variable {xs ys : List String}

theorem eraseDups_concat (xs : List String) (x : String) :
    (xs ++ [x]).eraseDups = if x ∈ xs then xs.eraseDups else xs.eraseDups ++ [x] := by
  rw [List.eraseDups_append]
  by_cases hx : x ∈ xs
  · have hnone : [x].removeAll xs = [] := by simp [List.removeAll, hx]
    rw [if_pos hx, hnone, List.eraseDups_nil, List.append_nil]
  · have hall : [x].removeAll xs = [x] := by simp [List.removeAll, hx]
    rw [if_neg hx, hall, List.eraseDups_cons]
    rfl

theorem eraseDups_append_eraseDups (xs ys : List String) :
    (xs ++ ys.eraseDups).eraseDups = (xs ++ ys).eraseDups := by
  induction ys using List.reverseRecOn with
  | nil => rfl
  | append_singleton ys y ih =>
    rw [eraseDups_concat ys y, ← List.append_assoc, eraseDups_concat (xs ++ ys) y]
    by_cases hy : y ∈ ys
    · rw [if_pos hy, if_pos (List.mem_append_right xs hy), ih]
    · have hmem : y ∈ xs ++ ys.eraseDups ↔ y ∈ xs ++ ys := by
        rw [List.mem_append, List.mem_append, List.mem_eraseDups]
      rw [if_neg hy, ← List.append_assoc, eraseDups_concat, ih]
      simp only [hmem]

/-- Lists with the same first occurrences have the same ones also with more behind them. -/
theorem eraseDups_append_congr (h : xs.eraseDups = ys.eraseDups) (zs : List String) :
    (xs ++ zs).eraseDups = (ys ++ zs).eraseDups := by
  have hmem : ∀ z, z ∈ xs ↔ z ∈ ys := by
    intro z
    rw [← List.mem_eraseDups, h, List.mem_eraseDups]
  have hrest : zs.removeAll xs = zs.removeAll ys := by
    simp only [List.removeAll, List.elem_eq_mem, hmem]
  rw [List.eraseDups_append, List.eraseDups_append, h, hrest]

end Values

theorem mergeSiblings_concat (ds : List Scope) (d : Scope) :
    mergeSiblings (ds ++ [d]) = absorbInto d (mergeSiblings ds) := by
  rw [mergeSiblings, List.foldl_append]
  rfl

theorem map_value_mergeSiblings (ds : List Scope) :
    (mergeSiblings ds).map (·.scope.value) = (ds.map value).eraseDups := by
  induction ds using List.reverseRecOn with
  | nil => rfl
  | append_singleton ds d ih =>
    rw [mergeSiblings_concat, map_value_absorbInto, ih, List.map_append, List.map_singleton,
      eraseDups_concat]
    simp only [List.mem_eraseDups]

/-- A merged list has the values of the list, in the order of their first occurrences. -/
theorem map_value_normalize (ds : List Scope) :
    (normalize ds).map value = (ds.map value).eraseDups := by
  rw [normalize, map_value_settle, map_value_mergeSiblings]

/-! ## Gathering -/

/-- What lies directly below the occurrences of a value in the list. -/
def beneath (ds : List Scope) (v : String) : List Scope :=
  (ds.filter (·.value == v)).flatMap dependencies

/-- The scope that holds what the occurrences of a value in the list hold: it is optional if all of
them are, and its dependencies are theirs, merged. -/
def gathered (ds : List Scope) (v : String) : Scope :=
  mk v ((ds.filter (·.value == v)).all optional) (normalize (beneath ds v))

section Gathered

variable {ds : List Scope}

@[simp] theorem beneath_append (ds es : List Scope) (v : String) :
    beneath (ds ++ es) v = beneath ds v ++ beneath es v := by
  rw [beneath, List.filter_append, List.flatMap_append]
  rfl

theorem tidy_of_mem_filter {v : String} (hds : ∀ d ∈ ds, d.Tidy) :
    ∀ d ∈ ds.filter (·.value == v), d.Tidy :=
  fun d hd => hds d (List.mem_filter.1 hd).1

theorem tidy_of_mem_beneath {v : String} (hds : ∀ d ∈ ds, d.Tidy) : ∀ e ∈ beneath ds v, e.Tidy := by
  intro e he
  obtain ⟨d, hd, he⟩ := List.mem_flatMap.1 he
  exact (tidy_of_mem_filter hds d hd).of_mem he

theorem filter_ne_nil_iff {v : String} : ds.filter (·.value == v) ≠ [] ↔ v ∈ ds.map value := by
  rw [← List.length_pos_iff, List.length_pos_iff_exists_mem]
  simp only [List.mem_filter, beq_iff_eq, List.mem_map]

/-- The occurrences of one value are merged into the scope that they gather in. -/
theorem normalize_filter {v : String} (hds : ∀ d ∈ ds, d.Tidy) (hv : v ∈ ds.map value) :
    normalize (ds.filter (·.value == v)) = [gathered ds v] :=
  normalize_of_value (filter_ne_nil_iff.2 hv) (fun _ => value_of_mem_filter)
    (tidy_of_mem_filter hds)

theorem eq_gathered_of_mem_normalize (hds : ∀ d ∈ ds, d.Tidy) {d : Scope}
    (hd : d ∈ normalize ds) : d = gathered ds d.value := by
  have hvalue : d.value ∈ ds.map value := by
    have hmem := List.mem_map_of_mem (f := value) hd
    rwa [map_value_normalize, List.mem_eraseDups] at hmem
  have hfilter : d ∈ (normalize ds).filter (·.value == d.value) :=
    List.mem_filter.2 ⟨hd, beq_self_eq_true _⟩
  rw [filter_normalize, normalize_filter hds hvalue] at hfilter
  exact List.mem_singleton.1 hfilter

/-- Merging makes one scope for each value, in the order of first occurrences, out of all its
occurrences. -/
theorem normalize_eq (hds : ∀ d ∈ ds, d.Tidy) :
    normalize ds = (ds.map value).eraseDups.map (gathered ds) := by
  rw [← map_value_normalize, List.map_map]
  have hself : ∀ d ∈ normalize ds, (gathered ds ∘ value) d = d :=
    fun d hd => (eq_gathered_of_mem_normalize hds hd).symm
  rw [List.map_congr_left hself, List.map_id']

theorem mem_normalize_iff (hds : ∀ d ∈ ds, d.Tidy) {d : Scope} :
    d ∈ normalize ds ↔ d.value ∈ ds.map value ∧ d = gathered ds d.value := by
  rw [normalize_eq hds, List.mem_map]
  simp only [List.mem_eraseDups]
  constructor
  · rintro ⟨v, hv, rfl⟩
    exact ⟨hv, rfl⟩
  · rintro ⟨hv, hd⟩
    exact ⟨d.value, hv, hd.symm⟩

theorem beneath_normalize (hds : ∀ d ∈ ds, d.Tidy) (v : String) :
    beneath (normalize ds) v = normalize (beneath ds v) :=
  flatMap_dependencies_normalize hds v

theorem all_optional_normalize (hds : ∀ d ∈ ds, d.Tidy) (v : String) :
    ((normalize ds).filter (·.value == v)).all optional =
      (ds.filter (·.value == v)).all optional := by
  rw [filter_normalize]
  by_cases hv : v ∈ ds.map value
  · rw [normalize_filter hds hv, List.all_cons, List.all_nil, Bool.and_true, gathered, optional_mk]
  · have hnone : ds.filter (·.value == v) = [] := by
      by_contra hne
      exact hv (filter_ne_nil_iff.1 hne)
    rw [hnone, normalize_nil]

end Gathered

/-! ## Merging a part first -/

theorem sizeList_filter_le (p : Scope → Bool) (ds : List Scope) :
    sizeList (ds.filter p) ≤ sizeList ds := by
  induction ds with
  | nil => exact Nat.le_refl 0
  | cons d ds ih =>
    rw [List.filter_cons, sizeList_cons]
    split
    · rw [sizeList_cons]
      omega
    · omega

theorem sizeList_flatMap_dependencies (ds : List Scope) :
    sizeList (ds.flatMap dependencies) + ds.length = sizeList ds := by
  induction ds with
  | nil => rfl
  | cons d ds ih =>
    rw [List.flatMap_cons, sizeList_append, List.length_cons, sizeList_cons, size_eq d]
    omega

/-- What the occurrences of a value hold is smaller than the list in which they stand. -/
theorem sizeList_beneath_lt {ds : List Scope} {v : String} (hv : v ∈ ds.map value) :
    sizeList (beneath ds v) < sizeList ds := by
  have hle := sizeList_filter_le (·.value == v) ds
  have hsum : sizeList (beneath ds v) + _ = _ :=
    sizeList_flatMap_dependencies (ds.filter (·.value == v))
  have hpos := List.length_pos_iff.2 (filter_ne_nil_iff.2 hv)
  omega

/-- It makes no difference to the merged list if a part of it is merged first. -/
theorem normalize_append_normalize_append {as bs cs : List Scope} (has : ∀ a ∈ as, a.Tidy)
    (hbs : ∀ b ∈ bs, b.Tidy) (hcs : ∀ c ∈ cs, c.Tidy) :
    normalize (as ++ normalize bs ++ cs) = normalize (as ++ bs ++ cs) := by
  -- on the size: what lies below one value is put together from parts of several trees
  induction hn : sizeList (as ++ bs ++ cs) using Nat.strongRecOn generalizing as bs cs with
  | ind n ih =>
    subst hn
    have hparts : ∀ {xs : List Scope}, (∀ x ∈ xs, x.Tidy) → ∀ x ∈ as ++ xs ++ cs, x.Tidy := by
      intro xs hxs
      simp only [List.forall_mem_append]
      exact ⟨⟨has, hxs⟩, hcs⟩
    have hwhole := hparts hbs
    rw [normalize_eq (hparts (tidyList_normalize hbs).2), normalize_eq hwhole]
    have hvalues : ((as ++ normalize bs ++ cs).map value).eraseDups =
        ((as ++ bs ++ cs).map value).eraseDups := by
      simp only [List.map_append, map_value_normalize]
      exact eraseDups_append_congr (eraseDups_append_eraseDups _ _) _
    rw [hvalues]
    refine List.map_congr_left fun v hv => ?_
    rw [List.mem_eraseDups] at hv
    have hsize := sizeList_beneath_lt hv
    rw [beneath_append, beneath_append] at hsize
    have hbeneath := ih _ hsize (tidy_of_mem_beneath has) (tidy_of_mem_beneath hbs)
      (tidy_of_mem_beneath hcs) rfl
    simp only [gathered, List.filter_append, List.all_append, all_optional_normalize hbs,
      beneath_append, beneath_normalize hbs, hbeneath]

end ScopeGrant.Scope
