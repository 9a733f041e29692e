import ScopeGrant.Proofs.Consent.Forest
import ScopeGrant.Requirement.Demand

/-!
# The order of the consents does not matter

A consent may come before its parent or its root in the list. Building goes through the list in the
order in which it stands, but what comes out is told by which consents there are: the nodes are the
consents by identifier, each of them has an entry among the edges (`mem_edges_iff`) that holds its
children, and the depth is a maximum. So trees of the same consents are one tree (`ofList_perm`),
and a forest is one too, since its trees stand in the order of their roots.
-/

namespace ScopeGrant

open Std (ExtTreeMap ExtTreeSet)

/-! ## Trees -/

namespace ConsentTree

section Tree

variable {consents consents' : List Consent} {rootId : ConsentId} {t t' : ConsentTree}

theorem mem_edges_of_link {nodes : ExtTreeMap ConsentId Consent}
    {edges : ExtTreeMap ConsentId (ExtTreeSet ConsentId)} (hstored : Stored consents nodes)
    (h : consents.foldlM (link nodes) (.ofList (consents.map fun c => (c.id, ∅))) = .ok edges)
    (id : ConsentId) : id ∈ edges ↔ ∃ c ∈ consents, c.id = id := by
  refine foldlM_invariant (P := fun _ edges => id ∈ edges ↔ ∃ c ∈ consents, c.id = id)
    (fun _ c edges edges' hedges hc => ?_) ?_ h
  · rcases link_eq_ok hc with ⟨-, rfl⟩ | ⟨parentId, p, -, hp, -, rfl⟩
    · exact hedges
    · -- the edge is noted at a consent of the list
      rw [ExtTreeMap.mem_insert, hedges, Std.compare_eq_iff_eq, or_iff_right_iff_imp]
      rintro rfl
      exact ⟨p, (hstored _ _).1 hp⟩
  · rw [ExtTreeMap.mem_ofList, List.contains_iff_mem, List.map_map, List.mem_map]
    rfl

theorem mem_edges_iff (h : ofList rootId consents = .ok t) (id : ConsentId) :
    id ∈ t.edges ↔ ∃ c ∈ consents, c.id = id :=
  mem_edges_of_link (holds_of_ofList h).stored (ofList_eq_ok h).2.2.1 id

theorem Stored.eq_of_perm {nodes nodes' : ExtTreeMap ConsentId Consent}
    (h : Stored consents nodes) (h' : Stored consents' nodes')
    (hperm : consents.Perm consents') : nodes = nodes' := by
  refine ExtTreeMap.ext_getElem? fun id => Option.ext fun c => ?_
  rw [h id c, h' id c, hperm.mem_iff]

theorem edges_eq_of_perm (h : ofList rootId consents = .ok t)
    (h' : ofList rootId consents' = .ok t') (hperm : consents.Perm consents') :
    t.edges = t'.edges := by
  refine ExtTreeMap.ext_getElem? fun id => ?_
  have hchildren : t.edges.getD id ∅ = t'.edges.getD id ∅ := by
    refine ExtTreeSet.ext_mem fun child => ?_
    rw [(holds_of_ofList h).linked, (holds_of_ofList h').linked]
    simp only [hperm.mem_iff]
  have hmem : id ∈ t.edges ↔ id ∈ t'.edges := by
    rw [mem_edges_iff h, mem_edges_iff h']
    simp only [hperm.mem_iff]
  by_cases hid : id ∈ t.edges
  · rw [ExtTreeMap.getElem?_eq_some_getD hid, ExtTreeMap.getElem?_eq_some_getD (hmem.1 hid),
      hchildren]
  · rw [ExtTreeMap.getElem?_eq_none hid, ExtTreeMap.getElem?_eq_none (mt hmem.2 hid)]

theorem eq_of_perm (h : ofList rootId consents = .ok t) (h' : ofList rootId consents' = .ok t')
    (hperm : consents.Perm consents') : t = t' := by
  obtain ⟨-, hroot, -, hdepth⟩ := ofList_eq_ok h
  obtain ⟨-, hroot', -, hdepth'⟩ := ofList_eq_ok h'
  have hnodes : t.nodes = t'.nodes :=
    (holds_of_ofList h).stored.eq_of_perm (holds_of_ofList h').stored hperm
  have hedges := edges_eq_of_perm h h' hperm
  rw [hnodes, hroot', Option.some.injEq] at hroot
  rw [(hperm.map Consent.depth).foldl_eq 0, ← hdepth'] at hdepth
  cases t
  cases t'
  simp_all only

/-- The same consents make the same tree. -/
theorem ofList_perm (hperm : consents.Perm consents') :
    ofList rootId consents = .ok t ↔ ofList rootId consents' = .ok t := by
  suffices hbuilt : ∀ {consents consents' : List Consent}, consents.Perm consents' →
      ofList rootId consents = .ok t → ofList rootId consents' = .ok t from
    ⟨hbuilt hperm, hbuilt hperm.symm⟩
  intro consents consents' hperm h
  obtain ⟨hcoherent, hroot, hne⟩ := exists_ofList_eq_ok_iff.1 ⟨t, h⟩
  obtain ⟨t', h'⟩ := exists_ofList_eq_ok (hcoherent.perm hperm)
    (fun c hc => hroot c (hperm.mem_iff.2 hc)) (fun hnil => hne (hperm.trans (.of_eq hnil)).eq_nil)
  rw [h', eq_of_perm h h' hperm]

end Tree

end ConsentTree

/-! ## Forests -/

namespace ConsentForest

variable {consents consents' : List Consent} {f f' : ConsentForest}

theorem nodup_trees (h : ofList consents = .ok f) : f.trees.Nodup :=
  (nodup_rootId h).of_map _

/-- The trees of a forest can stand in one order only. -/
theorem trees_eq_of_perm (h : ofList consents = .ok f) {trees : List ConsentTree}
    (hperm : f.trees.Perm trees) (horder : trees.Pairwise (·.rootId ≤ ·.rootId)) :
    f.trees = trees := by
  refine hperm.eq_of_pairwise (fun s t hs ht hle hge => ?_)
    ((pairwise_rootId h).imp UInt64.le_of_lt) horder
  exact List.inj_on_of_nodup_map (nodup_rootId h) hs (hperm.mem_iff.2 ht)
    (UInt64.le_antisymm hle hge)

theorem eq_of_perm (h : ofList consents = .ok f) (h' : ofList consents' = .ok f')
    (hperm : consents.Perm consents') : f = f' := by
  have htrees : f.trees.Perm f'.trees := by
    refine (List.perm_ext_iff_of_nodup (nodup_trees h) (nodup_trees h')).2 fun t => ?_
    rw [mem_trees_iff h, mem_trees_iff h']
    exact ConsentTree.ofList_perm (hperm.filter _)
  have hsame := trees_eq_of_perm h htrees ((pairwise_rootId h').imp UInt64.le_of_lt)
  cases f
  cases f'
  exact congrArg _ hsame

/-- Lists of the same consents make the same forest, or none of them does. So the forest is written
and walked through in the same way, and it answers all that may be required in the same way. -/
theorem forest_eq_of_perm (consents consents' : List Consent) (hperm : consents.Perm consents') :
    ((∃ f, ofList consents = .ok f) ↔ ∃ f, ofList consents' = .ok f) ∧
    ∀ f f', ofList consents = .ok f → ofList consents' = .ok f' →
      f = f' ∧ f.display = f'.display ∧
      f.trees.map ConsentTree.walk = f'.trees.map ConsentTree.walk ∧
      ∀ demand : Demand, f.meetsDemand demand = f'.meetsDemand demand := by
  refine ⟨?_, fun f f' h h' => ?_⟩
  · rw [exists_ofList_eq_ok_iff, exists_ofList_eq_ok_iff]
    exact ⟨fun h => h.perm hperm, fun h => h.perm hperm.symm⟩
  · obtain rfl := eq_of_perm h h' hperm
    exact ⟨rfl, rfl, rfl, fun _ => rfl⟩

def topDown : List Consent :=
  [{ id := 2, client := "app", scopeValue := "a", path := [2] },
    { id := 1, client := "app", scopeValue := "b", path := [2, 1] },
    { id := 3, client := "web", scopeValue := "c", path := [2, 1, 3] }]

/-- In the second list each consent comes before the one above it. -/
theorem forest_eq_of_perm_of_reversed :
    topDown.Perm topDown.reverse ∧
    ∃ f, ofList topDown = .ok f ∧ ofList topDown.reverse = .ok f ∧
      f.display = "a (id=2, client=app)\n  b (id=1, client=app)\n    c (id=3, client=web)\n" := by
  have hperm : topDown.Perm topDown.reverse := (List.reverse_perm _).symm
  have hbuilt : (ofList topDown).map display =
      .ok "a (id=2, client=app)\n  b (id=1, client=app)\n    c (id=3, client=web)\n" := by
    decide +kernel
  obtain ⟨f, hf, hdisplay⟩ := map_eq_ok_iff.1 hbuilt
  obtain ⟨hsucceeds, hsame⟩ := forest_eq_of_perm _ _ hperm
  obtain ⟨f', hf'⟩ := hsucceeds.1 ⟨f, hf⟩
  obtain ⟨rfl, -⟩ := hsame f f' hf hf'
  exact ⟨hperm, f, hf, hf', hdisplay⟩

end ConsentForest

end ScopeGrant
