import ScopeGrant.Proofs.Consent.Forest

/-!
# One tree, or a forest of one tree

A list can be built as the tree below a given root or as a forest. The two look for faults in
different orders and refuse for different reasons: only the tree refuses a consent with another
root, and only the forest goes by the groups of the list. Both accept exactly lists that hang
together, though, and a list whose consents all have one root is its own group. So the tree is built
exactly if the forest has no other tree than the one below this root, and it is that tree
(`trees_eq_singleton_iff`).
-/

namespace ScopeGrant.ConsentForest

variable {consents : List Consent} {f : ConsentForest} {t : ConsentTree} {rootId : ConsentId}

/-- Consents with one root are a group of their own. -/
theorem group_eq_self (h : ∀ c ∈ consents, c.rootId? = some rootId) :
    group consents rootId = consents := by
  rw [group, List.filter_eq_self]
  intro c hc
  rw [h c hc, beq_self_eq_true]

/-- All consents of a forest of one tree have its root. -/
theorem rootId?_of_trees_eq_singleton (h : ofList consents = .ok f) (hone : f.trees = [t]) :
    ∀ c ∈ consents, c.rootId? = some t.rootId := by
  intro c hc
  obtain ⟨t', ht', hroot⟩ := exists_mem_trees h hc
  rw [hone, List.mem_singleton] at ht'
  rwa [← ht']

/-- The roots of the trees differ, so a forest in which all trees have one root has one tree. -/
theorem trees_eq_singleton_of_rootId (h : ofList consents = .ok f) (ht : t ∈ f.trees)
    (hroot : ∀ t' ∈ f.trees, t'.rootId = t.rootId) : f.trees = [t] := by
  have hnodup : f.trees.Nodup := (nodup_rootId h).of_map _
  rw [← List.perm_singleton, List.perm_ext_iff_of_nodup hnodup (List.nodup_singleton t)]
  intro t'
  rw [List.mem_singleton]
  constructor
  · intro ht'
    exact List.inj_on_of_nodup_map (nodup_rootId h) ht' ht (hroot t' ht')
  · rintro rfl
    exact ht

/-- The forest of a list from which a tree can be built has no other tree than this one. -/
theorem trees_eq_singleton_of_ofList (ht : ConsentTree.ofList rootId consents = .ok t)
    (h : ofList consents = .ok f) : f.trees = [t] := by
  have hroots := (ConsentTree.exists_ofList_eq_ok_iff.1 ⟨t, ht⟩).2.1
  have hid : t.rootId = rootId := ConsentTree.rootId_of_ofList ht
  have hmem : t ∈ f.trees := by
    rw [mem_trees_iff h, hid, group_eq_self hroots]
    exact ht
  refine trees_eq_singleton_of_rootId h hmem fun t' ht' => ?_
  -- the root of any tree is a consent of the list, and these all have the root `rootId`
  obtain ⟨hroot, hpath⟩ := root_path h ht'
  have hfirst := hroots t'.root hroot
  rw [Consent.rootId?, hpath, List.head?_cons, Option.some.injEq] at hfirst
  rw [hfirst, hid]

theorem trees_eq_singleton_iff :
    (∃ f, ofList consents = .ok f ∧ f.trees = [t] ∧ t.rootId = rootId) ↔
      ConsentTree.ofList rootId consents = .ok t := by
  constructor
  · rintro ⟨f, h, hone, rfl⟩
    have hbuilt := ofList_of_mem_trees h (hone ▸ List.mem_singleton_self t)
    rwa [group_eq_self (rootId?_of_trees_eq_singleton h hone)] at hbuilt
  · intro ht
    obtain ⟨f, h⟩ := exists_ofList_eq_ok_iff.2 (ConsentTree.exists_ofList_eq_ok_iff.1 ⟨t, ht⟩).1
    exact ⟨f, h, trees_eq_singleton_of_ofList ht h, ConsentTree.rootId_of_ofList ht⟩

/-- The tree below a root is built from a list exactly if the forest of the list is built and has
one tree, which has this root. The two trees are then the same. Of any forest that is built, each
tree is the one that is built from the consents of the list whose paths begin with its root. -/
theorem tree_ofList_agrees (rootId : ConsentId) (consents : List Consent) :
    ((∃ t, ConsentTree.ofList rootId consents = .ok t) ↔
      ∃ f t, ofList consents = .ok f ∧ f.trees = [t] ∧ t.rootId = rootId) ∧
    (∀ t f, ConsentTree.ofList rootId consents = .ok t → ofList consents = .ok f →
      f.trees = [t]) ∧
    ∀ f, ofList consents = .ok f → ∀ t ∈ f.trees,
      ConsentTree.ofList t.rootId (consents.filter (·.path.head? == some t.rootId)) = .ok t := by
  refine ⟨?_, fun t f ht h => trees_eq_singleton_of_ofList ht h, fun f h t ht => ?_⟩
  · rw [exists_comm]
    exact exists_congr fun t => trees_eq_singleton_iff.symm
  · exact ofList_of_mem_trees h ht

def ownRoot : Consent :=
  { id := 1, client := "app", scopeValue := "a", path := [1] }

def ownChild : Consent :=
  { id := 2, client := "app", scopeValue := "b", path := [1, 2] }

def foreign : Consent :=
  { id := 5, client := "app", scopeValue := "x", path := [5] }

/-- A foreign consent makes the tree fail and is a tree of its own in the forest. -/
theorem tree_ofList_agrees_of_foreign :
    (¬ ∃ t, ConsentTree.ofList 1 [ownChild, foreign, ownRoot] = .ok t) ∧
    (∃ f, ofList [ownChild, foreign, ownRoot] = .ok f ∧
      ∃ t ∈ f.trees, t.rootId = 1 ∧ ConsentTree.ofList 1 [ownChild, ownRoot] = .ok t) ∧
    ∃ t f, ConsentTree.ofList 1 [ownChild, ownRoot] = .ok t ∧ ofList [ownChild, ownRoot] = .ok f ∧
      f.trees = [t] := by
  have hmixed : (ofList [ownChild, foreign, ownRoot]).map (fun f => f.trees.map (·.rootId)) =
      .ok [1, 5] := by decide +kernel
  have htree : (ConsentTree.ofList 1 [ownChild, ownRoot]).map ConsentTree.rootId = .ok 1 := by
    decide +kernel
  obtain ⟨f, hf, hroots⟩ := map_eq_ok_iff.1 hmixed
  obtain ⟨t, ht, -⟩ := map_eq_ok_iff.1 htree
  obtain ⟨hbuilt, -, hparts⟩ := tree_ofList_agrees 1 [ownChild, foreign, ownRoot]
  obtain ⟨honly, hsame, -⟩ := tree_ofList_agrees 1 [ownChild, ownRoot]
  refine ⟨fun h => ?_, ⟨f, hf, ?_⟩, ?_⟩
  · obtain ⟨f', t', hf', hone, -⟩ := hbuilt.1 h
    cases hf.symm.trans hf'
    rw [hone] at hroots
    have hlength := congrArg List.length hroots
    cases hlength
  · obtain ⟨t', ht', hroot⟩ : ∃ t' ∈ f.trees, t'.rootId = 1 := by
      rw [← List.mem_map, hroots]
      exact List.mem_cons_self ..
    refine ⟨t', ht', hroot, ?_⟩
    have hpart := hparts f hf t' ht'
    rw [hroot] at hpart
    exact hpart
  · obtain ⟨f', -, hf', -⟩ := honly.1 ⟨t, ht⟩
    exact ⟨t, f', ht, hf', hsame t f' ht hf'⟩

end ScopeGrant.ConsentForest
