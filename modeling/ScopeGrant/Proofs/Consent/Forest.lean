import ScopeGrant.Proofs.Consent.Building
import Mathlib.Data.List.Nodup
import Mathlib.Data.List.Perm.Basic

/-!
# What a built forest holds

The trees of a forest are those that are built from the groups of its list (`mem_trees_iff`), in the
order of their roots. Since the groups do not overlap, each consent of the list is stored in one
tree, that of its root (`get?_isSome_iff`). Since the roots differ and ascend, the search by halves
finds the tree below a root if there is one (`tree?_eq_some_iff`).
-/

namespace ScopeGrant

open Std (ExtTreeMap)

namespace ConsentForest

/-! ## Searching by halves -/

section Search

variable {trees : Array ConsentTree} {root : ConsentId}

theorem rootId_lt_rootId (hasc : trees.toList.Pairwise (·.rootId < ·.rootId)) {i j : Nat}
    (hij : i < j) (hj : j < trees.size) : trees[i].rootId < trees[j].rootId :=
  List.pairwise_iff_getElem.1 hasc i j (Nat.lt_trans hij hj) hj hij

variable {low high : Nat} {hhigh : high ≤ trees.size}

theorem of_searchTree_eq_some {t : ConsentTree}
    (h : searchTree trees root low high hhigh = some t) : t ∈ trees ∧ t.rootId = root := by
  fun_induction searchTree trees root low high hhigh with
  | case1 low high hhigh hlt middle hmiddle heq =>
    cases h
    exact ⟨Array.getElem_mem hmiddle, Std.compare_eq_iff_eq.1 heq⟩
  | case2 low high hhigh hlt middle hmiddle hless ih => exact ih h
  | case3 low high hhigh hlt middle hmiddle hmore ih => exact ih h
  | case4 low high hhigh hlt => cases h

theorem searchTree_of_getElem (hasc : trees.toList.Pairwise (·.rootId < ·.rootId)) {i : Nat}
    (hsize : i < trees.size) (hlow : low ≤ i) (hi : i < high) (hroot : trees[i].rootId = root) :
    searchTree trees root low high hhigh = some trees[i] := by
  fun_induction searchTree trees root low high hhigh with
  | case1 low high hhigh hlt middle hmiddle heq =>
    -- no two trees have the same root, so the tree in the middle is the one at the place `i`
    rw [Std.compare_eq_iff_eq, ← hroot] at heq
    rcases Nat.lt_trichotomy middle i with hbefore | rfl | hbehind
    · exact absurd heq (UInt64.ne_of_lt (rootId_lt_rootId hasc hbefore hsize))
    · rfl
    · exact absurd heq.symm (UInt64.ne_of_lt (rootId_lt_rootId hasc hbehind hmiddle))
  | case2 low high hhigh hlt middle hmiddle hcompare ih =>
    rw [Std.compare_eq_lt, ← hroot] at hcompare
    refine ih (Nat.lt_of_not_le fun hle => ?_) hi
    rcases Nat.lt_or_eq_of_le hle with hbehind | rfl
    · exact UInt64.lt_asymm hcompare (rootId_lt_rootId hasc hbehind hmiddle)
    · exact UInt64.lt_irrefl _ hcompare
  | case3 low high hhigh hlt middle hmiddle hcompare ih =>
    rw [Std.compare_eq_gt, ← hroot] at hcompare
    refine ih hlow (Nat.lt_of_not_le fun hle => ?_)
    rcases Nat.lt_or_eq_of_le hle with hbefore | rfl
    · exact UInt64.lt_asymm hcompare (rootId_lt_rootId hasc hbefore hsize)
    · exact UInt64.lt_irrefl _ hcompare
  | case4 low high hhigh hlt => omega

theorem tree?_eq_some_iff {f : ConsentForest} (hasc : f.trees.Pairwise (·.rootId < ·.rootId))
    {t : ConsentTree} : f.tree? root = some t ↔ t ∈ f.trees ∧ t.rootId = root := by
  constructor
  · intro h
    simpa using of_searchTree_eq_some h
  · rintro ⟨ht, hroot⟩
    obtain ⟨i, hi, rfl⟩ := List.mem_iff_getElem.1 ht
    have hasc' : f.trees.toArray.toList.Pairwise (·.rootId < ·.rootId) := hasc
    exact searchTree_of_getElem hasc' hi (Nat.zero_le i) hi hroot

end Search

/-! ## Groups and trees -/

section Built

variable {consents : List Consent} {f : ConsentForest} {t : ConsentTree} {c : Consent}
  {id root : ConsentId}

theorem mem_group_iff : c ∈ group consents root ↔ c ∈ consents ∧ c.rootId? = some root := by
  rw [group, List.mem_filter, beq_iff_eq]

/-- There is one tree for each group, in the order of the groups. -/
theorem mapM_groups (h : ofList consents = .ok f) :
    (groups consents).toList.mapM (fun entry => ConsentTree.ofList entry.1 entry.2) =
      .ok f.trees := by
  obtain ⟨byId, hbyId, -, htrees⟩ := ofList_eq_ok h
  rwa [groupByRoot_eq (stored_of_enrol hbyId) (coherent_of_ofList h).nodup] at htrees

theorem map_rootId_trees (h : ofList consents = .ok f) :
    f.trees.map (·.rootId) = (groups consents).keys := by
  rw [← ExtTreeMap.map_fst_toList_eq_keys, ← List.forall₂_eq_eq_eq, List.forall₂_map_left_iff,
    List.forall₂_map_right_iff]
  exact (mapM_eq_ok_iff.1 (mapM_groups h)).flip.imp fun t entry ht =>
    ConsentTree.rootId_of_ofList ht

theorem pairwise_rootId (h : ofList consents = .ok f) :
    f.trees.Pairwise (·.rootId < ·.rootId) := by
  have hkeys := (groups consents).ordered_keys
  rw [← map_rootId_trees h, List.pairwise_map] at hkeys
  exact hkeys.imp Std.compare_eq_lt.1

/-- Each tree is built from the consents that belong below its root. -/
theorem ofList_of_mem_trees (h : ofList consents = .ok f) (ht : t ∈ f.trees) :
    ConsentTree.ofList t.rootId (group consents t.rootId) = .ok t := by
  obtain ⟨⟨root, members⟩, hentry, hbuilt⟩ := exists_of_mem_mapM (mapM_groups h) ht
  obtain ⟨rfl, -⟩ := mem_toList_groups.1 hentry
  rwa [ConsentTree.rootId_of_ofList hbuilt]

theorem exists_mem_trees_of_group (h : ofList consents = .ok f) (hne : group consents root ≠ []) :
    ∃ t ∈ f.trees, t.rootId = root := by
  rw [← List.mem_map, map_rootId_trees h, ← ExtTreeMap.map_fst_toList_eq_keys]
  exact List.mem_map_of_mem (mem_toList_groups.2 ⟨rfl, hne⟩)

theorem mem_trees_iff (h : ofList consents = .ok f) :
    t ∈ f.trees ↔ ConsentTree.ofList t.rootId (group consents t.rootId) = .ok t := by
  refine ⟨ofList_of_mem_trees h, fun ht => ?_⟩
  -- the group has a tree in the forest, which is built from the same consents
  have hne := (ConsentTree.exists_ofList_eq_ok_iff.1 ⟨t, ht⟩).2.2
  obtain ⟨t', ht', hroot⟩ := exists_mem_trees_of_group h hne
  have hbuilt := ofList_of_mem_trees h ht'
  rw [hroot, ht, Except.ok.injEq] at hbuilt
  rwa [hbuilt]

theorem get?_eq_some_iff_of_mem_trees (h : ofList consents = .ok f) (ht : t ∈ f.trees) :
    t.get? id = some c ↔ (c ∈ consents ∧ c.rootId? = some t.rootId) ∧ c.id = id := by
  rw [← mem_group_iff]
  exact (ConsentTree.holds_of_ofList (ofList_of_mem_trees h ht)).stored id c

theorem exists_mem_trees (h : ofList consents = .ok f) (hc : c ∈ consents) :
    ∃ t ∈ f.trees, c.rootId? = some t.rootId := by
  have hne := ((coherent_of_ofList h).inOrder c hc).ne_nil
  obtain ⟨root, rest, hpath⟩ := List.exists_cons_of_ne_nil hne
  have hroot : c.rootId? = some root := by rw [Consent.rootId?, hpath, List.head?_cons]
  have hgroup := List.ne_nil_of_mem (mem_group_iff.2 ⟨hc, hroot⟩)
  obtain ⟨t, ht, rfl⟩ := exists_mem_trees_of_group h hgroup
  exact ⟨t, ht, hroot⟩

theorem nodup_rootId (h : ofList consents = .ok f) : (f.trees.map (·.rootId)).Nodup := by
  rw [map_rootId_trees h]
  exact ExtTreeMap.nodup_keys

/-- Each consent is stored in the tree of its root and in no other. -/
theorem get?_isSome_iff (h : ofList consents = .ok f) (hc : c ∈ consents) (ht : t ∈ f.trees) :
    (t.get? c.id).isSome ↔ c.rootId? = some t.rootId := by
  rw [Option.isSome_iff_exists]
  constructor
  · rintro ⟨d, hd⟩
    obtain ⟨⟨hd, hroot⟩, hid⟩ := (get?_eq_some_iff_of_mem_trees h ht).1 hd
    rwa [(coherent_of_ofList h).eq_of_id hc hd hid.symm]
  · intro hroot
    exact ⟨c, (get?_eq_some_iff_of_mem_trees h ht).2 ⟨⟨hc, hroot⟩, rfl⟩⟩

/-- The groups of the trees make up the list. -/
theorem flatMap_group_perm (h : ofList consents = .ok f) :
    ((f.trees.map (·.rootId)).flatMap (group consents)).Perm consents := by
  have hnodup : consents.Nodup := (coherent_of_ofList h).nodup.of_map _
  refine (List.perm_ext_iff_of_nodup (List.nodup_flatMap.2 ⟨fun root _ => hnodup.filter _, ?_⟩)
    hnodup).2 fun c => ?_
  · rw [List.pairwise_map]
    refine (pairwise_rootId h).imp fun {s t} hless c hs ht => ?_
    have hroot := (mem_group_iff.1 hs).2.symm.trans (mem_group_iff.1 ht).2
    exact UInt64.ne_of_lt hless (Option.some.inj hroot)
  · rw [List.mem_flatMap]
    constructor
    · rintro ⟨root, -, hc⟩
      exact (mem_group_iff.1 hc).1
    · intro hc
      obtain ⟨t, ht, hroot⟩ := exists_mem_trees h hc
      exact ⟨t.rootId, List.mem_map_of_mem ht, mem_group_iff.2 ⟨hc, hroot⟩⟩

theorem consentCount_eq_length (h : ofList consents = .ok f) :
    f.consentCount = consents.length := by
  have hsize : f.trees.map (·.size) = f.trees.map fun t => (group consents t.rootId).length :=
    List.map_congr_left fun t ht => ConsentTree.size_of_ofList (ofList_of_mem_trees h ht)
  rw [← (flatMap_group_perm h).length_eq, List.length_flatMap, List.map_map, consentCount,
    ← List.foldl_map, ← List.sum_eq_foldl, hsize]
  rfl

theorem root_path (h : ofList consents = .ok f) (ht : t ∈ f.trees) :
    t.root ∈ consents ∧ t.root.path = [t.rootId] := by
  have hcoherent := coherent_of_ofList h
  have hget := (ConsentTree.holds_of_ofList (ofList_of_mem_trees h ht)).root
  obtain ⟨⟨hmem, hroot⟩, -⟩ := (get?_eq_some_iff_of_mem_trees h ht).1 hget
  obtain ⟨p, hp, hpath⟩ := hcoherent.exists_root hmem hroot
  rw [← hcoherent.eq_of_id hp hmem ((hcoherent.inOrder p hp).id_eq hpath)]
  exact ⟨hp, hpath⟩

theorem map_root_perm (h : ofList consents = .ok f) :
    (f.trees.map (·.root)).Perm (consents.filter (·.isRoot)) := by
  have hcoherent := coherent_of_ofList h
  have hids : ((f.trees.map (·.root)).map Consent.id).Nodup := by
    rw [List.map_map]
    exact nodup_rootId h
  have hnodup : (consents.filter (·.isRoot)).Nodup := (hcoherent.nodup.of_map _).filter _
  refine (List.perm_ext_iff_of_nodup (hids.of_map _) hnodup).2 fun c => ?_
  rw [List.mem_map, List.mem_filter]
  constructor
  · rintro ⟨t, ht, rfl⟩
    obtain ⟨hmem, hpath⟩ := root_path h ht
    exact ⟨hmem, by rw [Consent.isRoot, hpath, List.length_singleton, beq_self_eq_true]⟩
  · rintro ⟨hc, hlength⟩
    obtain ⟨root, hpath⟩ := List.length_eq_one_iff.1 (beq_iff_eq.1 hlength)
    obtain ⟨t, ht, hroot⟩ := exists_mem_trees h hc
    obtain ⟨hmem, hpath'⟩ := root_path h ht
    rw [Consent.rootId?, hpath, List.head?_cons, Option.some.injEq] at hroot
    exact ⟨t, ht, hcoherent.eq_of_path hmem hc (by rw [hpath', hpath, hroot])⟩

theorem get?_eq_some_iff (h : ofList consents = .ok f) :
    f.get? id = some c ↔ c ∈ consents ∧ c.id = id := by
  have hsound : ∀ d, f.get? id = some d → d ∈ consents ∧ d.id = id := by
    intro d hd
    obtain ⟨t, ht, hget⟩ := List.exists_of_findSome?_eq_some hd
    obtain ⟨⟨hmem, -⟩, hid⟩ := (get?_eq_some_iff_of_mem_trees h ht).1 hget
    exact ⟨hmem, hid⟩
  refine ⟨hsound c, ?_⟩
  rintro ⟨hc, rfl⟩
  obtain ⟨t, ht, hroot⟩ := exists_mem_trees h hc
  have hsome : (f.get? c.id).isSome :=
    List.findSome?_isSome_iff.2 ⟨t, ht, (get?_isSome_iff h hc ht).2 hroot⟩
  obtain ⟨d, hd⟩ := Option.isSome_iff_exists.1 hsome
  obtain ⟨hmem, hid⟩ := hsound d hd
  obtain rfl := (coherent_of_ofList h).eq_of_id hc hmem hid.symm
  exact hd

theorem exists_tree?_eq_some_iff (h : ofList consents = .ok f) :
    (∃ t, f.tree? id = some t) ↔ ∃ c ∈ consents, c.path = [id] ∧ c.id = id := by
  simp only [tree?_eq_some_iff (pairwise_rootId h)]
  constructor
  · rintro ⟨t, ht, rfl⟩
    obtain ⟨hmem, hpath⟩ := root_path h ht
    exact ⟨t.root, hmem, hpath, rfl⟩
  · rintro ⟨c, hc, hpath, -⟩
    obtain ⟨t, ht, hroot⟩ := exists_mem_trees h hc
    rw [Consent.rootId?, hpath, List.head?_cons, Option.some.injEq] at hroot
    exact ⟨t, ht, hroot.symm⟩

end Built

/-- A forest that was built has one tree for each consent whose path has length one, in strictly
ascending order of the roots. Each consent of the list is stored as it is, in the tree that its path
begins with and in no other, and nothing else is stored. So consents are found under their
identifiers and trees under those of their roots. -/
theorem trees_partition_list (consents : List Consent) (f : ConsentForest)
    (h : ofList consents = .ok f) :
    f.trees.Pairwise (·.rootId < ·.rootId) ∧
    (f.trees.map (·.root)).Perm (consents.filter (·.path.length = 1)) ∧
    (∀ c ∈ consents, ∃ t ∈ f.trees, c.path.head? = some t.rootId ∧ t.get? c.id = some c ∧
      ∀ t' ∈ f.trees, (t'.get? c.id).isSome → t' = t) ∧
    (∀ t ∈ f.trees, ∀ id c, t.get? id = some c →
      c ∈ consents ∧ c.id = id ∧ c.path.head? = some t.rootId) ∧
    f.consentCount = consents.length ∧
    (∀ id c, f.get? id = some c ↔ c ∈ consents ∧ c.id = id) ∧
    (∀ id, f.get? id = none ↔ ∀ c ∈ consents, c.id ≠ id) ∧
    (∀ id t, f.tree? id = some t ↔ t ∈ f.trees ∧ t.rootId = id) ∧
    ∀ id, (∃ t, f.tree? id = some t) ↔ ∃ c ∈ consents, c.path = [id] ∧ c.id = id := by
  refine ⟨pairwise_rootId h, map_root_perm h, fun c hc => ?_, fun t ht id c hget => ?_,
    consentCount_eq_length h, fun _ _ => get?_eq_some_iff h, fun id => ?_,
    fun _ _ => tree?_eq_some_iff (pairwise_rootId h), fun _ => exists_tree?_eq_some_iff h⟩
  · obtain ⟨t, ht, hroot⟩ := exists_mem_trees h hc
    refine ⟨t, ht, hroot, (get?_eq_some_iff_of_mem_trees h ht).2 ⟨⟨hc, hroot⟩, rfl⟩, ?_⟩
    intro t' ht' hsome
    have hroot' := (get?_isSome_iff h hc ht').1 hsome
    exact List.inj_on_of_nodup_map (nodup_rootId h) ht' ht
      (Option.some.inj (hroot'.symm.trans hroot))
  · obtain ⟨⟨hc, hroot⟩, hid⟩ := (get?_eq_some_iff_of_mem_trees h ht).1 hget
    exact ⟨hc, hid, hroot⟩
  · rw [Option.eq_none_iff_forall_ne_some]
    simp only [ne_eq, get?_eq_some_iff h, not_and]

def belowGreaterRoot : Consent :=
  { id := 4, client := "app", scopeValue := "c", path := [7, 4] }

def twoTreesMixed : List Consent :=
  [belowGreaterRoot,
    { id := 2, client := "app", scopeValue := "b", path := [3, 2] },
    { id := 7, client := "app", scopeValue := "a", path := [7] },
    { id := 3, client := "app", scopeValue := "a", path := [3] }]

/-- Two trees, whose consents are mixed in the list. -/
theorem trees_partition_list_of_two :
    ∃ f, ofList twoTreesMixed = .ok f ∧
      f.trees.map (·.rootId) = [3, 7] ∧ f.consentCount = 4 ∧ f.get? 8 = none ∧
      (∃ t, f.tree? 7 = some t ∧ t ∈ f.trees ∧ t.get? 4 = some belowGreaterRoot) ∧
      ¬ ∃ t, f.tree? 4 = some t := by
  have hbuilt : (ofList twoTreesMixed).map (fun f => f.trees.map (·.rootId)) = .ok [3, 7] := by
    decide +kernel
  obtain ⟨f, hf, hroots⟩ := map_eq_ok_iff.1 hbuilt
  obtain ⟨-, -, hstored, -, hcount, -, hnone, htree, hfound⟩ := trees_partition_list _ f hf
  obtain ⟨t, ht, hroot, hget, -⟩ := hstored belowGreaterRoot (List.mem_cons_self ..)
  have hrootId : t.rootId = 7 := (Option.some.inj hroot).symm
  refine ⟨f, hf, hroots, hcount, (hnone 8).2 (by decide),
    ⟨t, (htree 7 t).2 ⟨ht, hrootId⟩, ht, hget⟩, ?_⟩
  rw [hfound]
  decide

end ConsentForest

end ScopeGrant
