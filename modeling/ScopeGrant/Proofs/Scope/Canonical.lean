import ScopeGrant.Proofs.Scope.RoundTrip

/-!
# Canonical text decides equality

Two scopes are equal if they are the same tree once every list is ordered. For scopes that can be
made there are two further ways to say this. One is that their canonical texts are the same, since
the text is read back as the ordered tree. The other does without any order: the values and markers
agree and the dependencies are the same as sets, by the same relation at every level (`Alike`). That
it comes to the same rests on siblings that differ in their values, for only then is a list known
from its members.
-/

namespace ScopeGrant.Scope

/-- The values and markers agree, and the dependencies are the same as sets: each one of either
scope is alike to one of the other scope, wherever it is stored. -/
def Alike : Scope → Scope → Prop
  | mk v o ds, b =>
    v = b.value ∧ o = b.optional ∧ (∀ d ∈ ds, ∃ e ∈ b.dependencies, Alike d e) ∧
      ∀ e ∈ b.dependencies, ∃ d, ∃ _ : d ∈ ds, Alike d e

theorem alike_iff {a b : Scope} :
    a.Alike b ↔
      a.value = b.value ∧ a.optional = b.optional ∧
        (∀ d ∈ a.dependencies, ∃ e ∈ b.dependencies, d.Alike e) ∧
        ∀ e ∈ b.dependencies, ∃ d ∈ a.dependencies, d.Alike e := by
  cases a with
  | mk v o ds =>
    rw [Alike]
    simp only [exists_prop, value_mk, optional_mk, dependencies_mk]

/-! ## Lists in order -/

theorem pairwise_map_ordered_sorted (s : Scope) :
    (s.sorted.map ordered).Pairwise fun x y => valueLE x y := by
  have hsorted := s.ordered.pairwise_sorted
  rwa [sorted_ordered] at hsorted

theorem nodup_map_ordered_sorted {s : Scope} (h : s.Tidy) :
    ((s.sorted.map ordered).map value).Nodup := by
  have htidy := tidy_iff.1 (tidy_ordered h)
  rw [dependencies_ordered] at htidy
  exact htidy.1

/-- Where siblings differ, the ordered dependencies of two scopes are the same list if they are the
same as sets. -/
theorem map_ordered_sorted_eq_iff {a b : Scope} (ha : a.Tidy) (hb : b.Tidy) :
    a.sorted.map ordered = b.sorted.map ordered ↔
      (∀ d ∈ a.dependencies, ∃ e ∈ b.dependencies, d.ordered = e.ordered) ∧
        ∀ e ∈ b.dependencies, ∃ d ∈ a.dependencies, d.ordered = e.ordered := by
  have hsubset : ∀ s t : Scope, s.sorted.map ordered ⊆ t.sorted.map ordered ↔
      ∀ d ∈ s.dependencies, ∃ e ∈ t.dependencies, e.ordered = d.ordered := by
    intro s t
    simp only [List.subset_def, List.mem_map, mem_sorted, forall_exists_index, and_imp,
      forall_apply_eq_imp_iff₂]
  have hsets : ((∀ d ∈ a.dependencies, ∃ e ∈ b.dependencies, d.ordered = e.ordered) ∧
      ∀ e ∈ b.dependencies, ∃ d ∈ a.dependencies, d.ordered = e.ordered) ↔
      a.sorted.map ordered ⊆ b.sorted.map ordered ∧
        b.sorted.map ordered ⊆ a.sorted.map ordered := by
    rw [hsubset a b, hsubset b a]
    refine and_congr_left fun _ => forall₂_congr fun d _ => exists_congr fun e => ?_
    rw [@eq_comm _ d.ordered]
  rw [hsets]
  constructor
  · intro h
    rw [h]
    exact ⟨List.Subset.refl _, List.Subset.refl _⟩
  · rintro ⟨hleft, hright⟩
    have hnodupA := nodup_map_ordered_sorted ha
    have hnodupB := nodup_map_ordered_sorted hb
    have hperm : (a.sorted.map ordered).Perm (b.sorted.map ordered) :=
      (List.perm_ext_iff_of_nodup hnodupA.of_map hnodupB.of_map).2 fun _ =>
        ⟨fun hx => hleft hx, fun hx => hright hx⟩
    have hantisymm : ∀ x y, x ∈ a.sorted.map ordered → y ∈ b.sorted.map ordered →
        valueLE x y = true → valueLE y x = true → x = y := by
      intro x y hx hy hxy hyx
      -- two scopes that may stand in either order have one value, so they are the same sibling
      have hvalue : x.value = y.value := by
        simp only [valueLE, decide_eq_true_eq] at hxy hyx
        exact le_antisymm hxy hyx
      exact List.inj_on_of_nodup_map hnodupB (hleft hx) hy hvalue
    exact List.Perm.eq_of_pairwise hantisymm (pairwise_map_ordered_sorted a)
      (pairwise_map_ordered_sorted b) hperm

/-! ## Equality -/

theorem equal_iff_alike {a b : Scope} (ha : a.Tidy) (hb : b.Tidy) :
    a.equal b = true ↔ a.Alike b := by
  induction a generalizing b with
  | mk v o ds ih =>
    have hbelow : ∀ d ∈ ds, ∀ e ∈ b.dependencies, d.ordered = e.ordered ↔ d.Alike e := by
      intro d hd e he
      rw [← ih d hd (ha.of_mem hd) (hb.of_mem he), equal_iff]
    rw [equal_iff, ordered_eq, ordered_eq, mk.injEq, map_ordered_sorted_eq_iff ha hb, alike_iff,
      value_mk, optional_mk, dependencies_mk]
    refine and_congr_right fun _ => and_congr_right fun _ => and_congr ?_ ?_
    · refine forall₂_congr fun d hd => exists_congr fun e => and_congr_right fun he => ?_
      exact hbelow d hd e he
    · refine forall₂_congr fun e he => exists_congr fun d => and_congr_right fun hd => ?_
      exact hbelow d hd e he

theorem equal_iff_render_eq {a b : Scope} (ha : a.WellFormed) (hb : b.WellFormed) :
    a.equal b = true ↔ a.render = b.render := by
  rw [equal_iff]
  constructor
  · intro h
    rw [← render_ordered a, ← render_ordered b, h]
  · intro h
    -- one text cannot be read back as two trees
    have hread := parseOne_render ha
    rw [h, parseOne_render hb] at hread
    exact (Except.ok.inj hread).symm

/-- Of scopes that can be made, two are equal exactly if their canonical texts are the same, and
exactly if their values and markers agree and their dependencies are the same as sets, by the same
relation at every level. Equality is an equivalence relation on these scopes. -/
theorem equal_tfae_of_reachable :
    (∀ a b : Scope, a.Reachable → b.Reachable →
      [a.equal b = true, a.render = b.render, a.Alike b].TFAE) ∧
    Equivalence fun a b : { s : Scope // s.Reachable } => a.1.equal b.1 = true := by
  constructor
  · intro a b ha hb
    tfae_have 1 ↔ 2 := equal_iff_render_eq ha.wellFormed hb.wellFormed
    tfae_have 1 ↔ 3 := equal_iff_alike ha.wellFormed.tidy hb.wellFormed.tidy
    tfae_finish
  · constructor
    · exact fun a => equal_iff.2 rfl
    · exact fun h => equal_iff.2 (equal_iff.1 h).symm
    · exact fun h h' => equal_iff.2 ((equal_iff.1 h).trans (equal_iff.1 h'))

def storedBackward : Scope :=
  mk "a" false [mk "b" true [leaf "d" false, leaf "c" false], leaf "e" false]

def storedForward : Scope :=
  mk "a" false [leaf "e" false, mk "b" true [leaf "c" false, leaf "d" false]]

def storedMarked : Scope :=
  mk "a" false [mk "b" true [leaf "d" true, leaf "c" false], leaf "e" false]

/-- Of three scopes that are read from one text, the first two store their dependencies in different
orders at both levels, and the third one differs in a marker below. -/
theorem equal_tfae_of_read :
    storedBackward.Reachable ∧ storedForward.Reachable ∧ storedMarked.Reachable ∧
    storedBackward.Alike storedForward ∧
    ¬ storedBackward.equal storedMarked = true := by
  have hread : Scope.parse "a[*b[d c] e] a[e *b[c d]] a[*b[*d c] e]" =
      .ok [storedBackward, storedForward, storedMarked] := by cbv
  have hfirst := Reachable.parse hread (List.mem_cons_self ..)
  have hsecond := Reachable.parse hread (List.mem_cons_of_mem _ (List.mem_cons_self ..))
  have hthird := Reachable.parse hread
    (List.mem_cons_of_mem _ (List.mem_cons_of_mem _ (List.mem_cons_self ..)))
  have htext₁ : storedBackward.render = "a[*b[c d] e]" := by cbv
  have htext₂ : storedForward.render = "a[*b[c d] e]" := by cbv
  have htext₃ : storedMarked.render = "a[*b[c *d] e]" := by cbv
  refine ⟨hfirst, hsecond, hthird, ?_, fun h => ?_⟩
  · exact ((equal_tfae_of_reachable.1 _ _ hfirst hsecond).out 1 2).1 (htext₁.trans htext₂.symm)
  · have htext := ((equal_tfae_of_reachable.1 _ _ hfirst hthird).out 0 1).1 h
    rw [htext₁, htext₃] at htext
    exact absurd htext (by decide)

end ScopeGrant.Scope
