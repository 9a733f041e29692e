import ScopeGrant.Proofs.Consent.Order

/-!
# Two lists of consents in one

Consents of different trees never count together. When two lists without a common identifier are
mixed, the consents below one root all come from the list that the root comes from (`group_perm`),
so the trees of the two are left as they are. In particular a scope that one list meets in part and
the other one for the rest is not met.
-/

namespace ScopeGrant.ConsentForest

section Mixed

variable {consents more mixed : List Consent} {f g m : ConsentForest} {t : ConsentTree}

/-- Nothing of the one list lies below a consent of the other one. -/
theorem group_eq_nil (hmore : Coherent more) {root : ConsentId} (hnew : ∀ d ∈ more, root ≠ d.id) :
    group more root = [] := by
  refine List.eq_nil_iff_forall_not_mem.2 fun d hd => ?_
  obtain ⟨hmem, hroot⟩ := mem_group_iff.1 hd
  obtain ⟨p, hp, hpath⟩ := hmore.exists_root hmem hroot
  exact hnew p hp ((hmore.inOrder p hp).id_eq hpath).symm

theorem group_perm (hmixed : mixed.Perm (consents ++ more)) (hmore : Coherent more)
    {root : ConsentId} (hnew : ∀ d ∈ more, root ≠ d.id) :
    (group mixed root).Perm (group consents root) := by
  have hperm : (group mixed root).Perm (group consents root ++ group more root) := by
    rw [group, group, group, ← List.filter_append]
    exact hmixed.filter _
  rwa [group_eq_nil hmore hnew, List.append_nil] at hperm

/-- The trees whose roots come from one of the lists are the trees of this list. -/
theorem mem_trees_mixed_iff (hmixed : mixed.Perm (consents ++ more)) (hmore : Coherent more)
    (hm : ofList mixed = .ok m) (hf : ofList consents = .ok f)
    (hnew : ∀ d ∈ more, t.rootId ≠ d.id) : t ∈ m.trees ↔ t ∈ f.trees := by
  rw [mem_trees_iff hm, mem_trees_iff hf]
  exact ConsentTree.ofList_perm (group_perm hmixed hmore hnew)

variable (hdisjoint : ∀ c ∈ consents, ∀ d ∈ more, c.id ≠ d.id)
  (hf : ofList consents = .ok f) (hg : ofList more = .ok g)

include hdisjoint hf hg

theorem disjoint_trees : f.trees.Disjoint g.trees := fun t ht ht' =>
  hdisjoint t.root (root_path hf ht).1 t.root (root_path hg ht').1 rfl

variable (hmixed : mixed.Perm (consents ++ more))

include hmixed

theorem exists_ofList_mixed : ∃ m, ofList mixed = .ok m := by
  have hparts := (coherent_of_ofList hf).append (coherent_of_ofList hg) hdisjoint
  exact exists_ofList_eq_ok_iff.2 (hparts.perm hmixed.symm)

theorem mem_trees_mixed_iff_or (hm : ofList mixed = .ok m) :
    t ∈ m.trees ↔ t ∈ f.trees ∨ t ∈ g.trees := by
  have hleft : t.root ∈ consents → (t ∈ m.trees ↔ t ∈ f.trees) := fun hroot =>
    mem_trees_mixed_iff hmixed (coherent_of_ofList hg) hm hf (hdisjoint _ hroot)
  have hright : t.root ∈ more → (t ∈ m.trees ↔ t ∈ g.trees) := fun hroot =>
    mem_trees_mixed_iff (hmixed.trans List.perm_append_comm) (coherent_of_ofList hf) hm hg
      fun c hc => (hdisjoint c hc _ hroot).symm
  constructor
  · intro ht
    rcases List.mem_append.1 (hmixed.mem_iff.1 (root_path hm ht).1) with hroot | hroot
    · exact Or.inl ((hleft hroot).1 ht)
    · exact Or.inr ((hright hroot).1 ht)
  · rintro (ht | ht)
    · exact (hleft (root_path hf ht).1).2 ht
    · exact (hright (root_path hg ht).1).2 ht

theorem trees_mixed_eq_merge (hm : ofList mixed = .ok m) :
    m.trees = f.trees.merge g.trees fun s t => s.rootId ≤ t.rootId := by
  have hmerged : (f.trees.merge g.trees fun s t => s.rootId ≤ t.rootId).Perm (f.trees ++ g.trees) :=
    List.merge_perm_append _
  have hnodup : (f.trees ++ g.trees).Nodup :=
    (nodup_trees hf).append (nodup_trees hg) (disjoint_trees hdisjoint hf hg)
  refine trees_eq_of_perm hm ?_ ?_
  · refine (List.perm_ext_iff_of_nodup (nodup_trees hm) (hmerged.nodup_iff.2 hnodup)).2 fun t => ?_
    rw [mem_trees_mixed_iff_or hdisjoint hf hg hmixed hm, List.mem_merge]
  · have hle : ∀ {f : ConsentForest} {consents : List Consent}, ofList consents = .ok f →
        f.trees.Pairwise fun s t => decide (s.rootId ≤ t.rootId) = true :=
      fun h => (pairwise_rootId h).imp fun hlt => decide_eq_true (UInt64.le_of_lt hlt)
    refine (List.pairwise_merge ?_ ?_ _ _ (hle hf) (hle hg)).imp of_decide_eq_true
    · intro r s t hrs hst
      exact decide_eq_true (UInt64.le_trans (of_decide_eq_true hrs) (of_decide_eq_true hst))
    · intro s t
      simpa using UInt64.le_total s.rootId t.rootId

end Mixed

/-- Two lists without a common identifier, of which forests are built, may be mixed in any way. The
trees of the whole are those of the two forests, and a scope is met by the whole exactly if one of
the two forests meets it. -/
theorem exists_ofList_mixed_and_meets_iff (consents more mixed : List Consent)
    (hmixed : mixed.Perm (consents ++ more))
    (hdisjoint : ∀ c ∈ consents, ∀ d ∈ more, c.id ≠ d.id) (f g : ConsentForest)
    (hf : ofList consents = .ok f) (hg : ofList more = .ok g) :
    ∃ m, ofList mixed = .ok m ∧
      m.trees = f.trees.merge g.trees (fun s t => s.rootId ≤ t.rootId) ∧
      (∀ t, t ∈ m.trees ↔ t ∈ f.trees ∨ t ∈ g.trees) ∧
      ∀ required, m.meets required = true ↔ f.meets required = true ∨ g.meets required = true := by
  obtain ⟨m, hm⟩ := exists_ofList_mixed hdisjoint hf hg hmixed
  have htrees := fun t => mem_trees_mixed_iff_or (t := t) hdisjoint hf hg hmixed hm
  refine ⟨m, hm, trees_mixed_eq_merge hdisjoint hf hg hmixed hm, htrees, fun required => ?_⟩
  simp only [meets, List.any_eq_true, htrees, or_and_right, exists_or]

def rootA : Consent :=
  { id := 1, client := "app", scopeValue := "a", path := [1] }

def childB : Consent :=
  { id := 4, client := "app", scopeValue := "b", path := [1, 4] }

def rootB : Consent :=
  { id := 3, client := "app", scopeValue := "b", path := [3] }

def childC : Consent :=
  { id := 5, client := "app", scopeValue := "c", path := [3, 5] }

def scopeAB : Scope :=
  .mk "a" false [.leaf "b" false]

def scopeBC : Scope :=
  .mk "b" false [.leaf "c" false]

def scopeABC : Scope :=
  .mk "a" false [scopeBC]

/-- One list grants `a[b]` and the other one `b[c]`. Together they do not grant `a[b[c]]`. -/
theorem not_meets_mixed_of_two_parts :
    ∃ f g m, ofList [rootA, childB] = .ok f ∧ ofList [childC, rootB] = .ok g ∧
      ofList [childC, rootA, rootB, childB] = .ok m ∧
      m.trees = f.trees.merge g.trees (fun s t => s.rootId ≤ t.rootId) ∧
      m.meets scopeAB = true ∧ m.meets scopeBC = true ∧ ¬ m.meets scopeABC = true := by
  have hmixed : [childC, rootA, rootB, childB].Perm ([rootA, childB] ++ [childC, rootB]) := by
    decide
  have hfirst : (ofList [rootA, childB]).map (fun f => (f.meets scopeAB, f.meets scopeABC)) =
      .ok (true, false) := by decide +kernel
  have hsecond : (ofList [childC, rootB]).map (fun g => (g.meets scopeBC, g.meets scopeABC)) =
      .ok (true, false) := by decide +kernel
  obtain ⟨f, hf, hfmeets⟩ := map_eq_ok_iff.1 hfirst
  obtain ⟨g, hg, hgmeets⟩ := map_eq_ok_iff.1 hsecond
  obtain ⟨hab, hfabc⟩ := Prod.mk.inj hfmeets
  obtain ⟨hbc, hgabc⟩ := Prod.mk.inj hgmeets
  obtain ⟨m, hm, htrees, -, hmeets⟩ := exists_ofList_mixed_and_meets_iff _ _ _ hmixed
    (by decide) f g hf hg
  refine ⟨f, g, m, hf, hg, hm, htrees, (hmeets _).2 (Or.inl hab), (hmeets _).2 (Or.inr hbc), ?_⟩
  intro habc
  rcases (hmeets _).1 habc with h | h
  · rw [hfabc] at h
    cases h
  · rw [hgabc] at h
    cases h

end ScopeGrant.ConsentForest
