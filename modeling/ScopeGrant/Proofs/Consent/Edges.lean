import ScopeGrant.Proofs.Consent.Order
import Mathlib.Data.List.Chain
import Mathlib.Order.Bounds.Basic

/-!
# The edges of a tree

The edges are made from the parents alone, one for each consent but the root. Each parent has the
path of its child without the end, so a chain of edges that starts at the root spells the path of
the consent it leads to (`descent_iff_exists_path`). Hence there is one such chain for each consent,
and the longest of them, which ends at a consent without children, is as long as the longest path.
-/

namespace ScopeGrant

/-! ## Paths of parents -/

namespace Coherent

variable {consents : List Consent} {p c : Consent} {above : List ConsentId}
  {parentId id : ConsentId}

theorem id_eq_of_path (h : Coherent consents) (hc : c ∈ consents) (hpath : c.path = above ++ [id]) :
    c.id = id := by
  have hends := (h.inOrder c hc).ends
  rw [hpath, List.getLast?_concat, Option.some.injEq] at hends
  exact hends.symm

/-- The path of a consent is that of its parent with its own identifier added. -/
theorem path_eq_of_parentId? (h : Coherent consents) (hp : p ∈ consents) (hc : c ∈ consents)
    (hparent : c.parentId? = some p.id) : c.path = p.path ++ [c.id] := by
  obtain ⟨above, last, hpath⟩ := Consent.parentId?_eq_some_iff.1 hparent
  obtain ⟨p', hp', hid, hpath'⟩ := h.parent c hc above p.id last hpath
  obtain rfl : p' = p := h.eq_of_id hp' hp hid
  rw [← List.singleton_append, ← List.append_assoc, ← hpath'] at hpath
  rw [hpath, h.id_eq_of_path hc hpath]

theorem exists_path_concat_iff (h : Coherent consents) :
    (∃ c ∈ consents, c.path = above ++ [parentId, id]) ↔
      (∃ p ∈ consents, p.path = above ++ [parentId]) ∧
        ∃ c ∈ consents, c.id = id ∧ c.parentId? = some parentId := by
  constructor
  · rintro ⟨c, hc, hpath⟩
    obtain ⟨p, hp, -, hparent⟩ := h.parent c hc above parentId id hpath
    refine ⟨⟨p, hp, hparent⟩, c, hc, ?_, Consent.parentId?_eq_some_iff.2 ⟨above, id, hpath⟩⟩
    exact h.id_eq_of_path hc (hpath.trans (List.append_cons above parentId [id]))
  · rintro ⟨⟨p, hp, hpath⟩, c, hc, rfl, hparent⟩
    rw [← h.id_eq_of_path hp hpath] at hparent
    refine ⟨c, hc, ?_⟩
    rw [h.path_eq_of_parentId? hp hc hparent, hpath, List.append_assoc, List.singleton_append]

end Coherent

namespace ConsentTree

/-- An edge leads from one consent to another: the entry of the first holds the second. -/
def Edge (t : ConsentTree) (parentId id : ConsentId) : Prop :=
  ∃ children, t.edges[parentId]? = some children ∧ id ∈ children

/-- A chain of edges that starts at the root. -/
structure Descent (t : ConsentTree) (ids : List ConsentId) : Prop where
  start : ids.head? = some t.rootId
  chain : ids.IsChain t.Edge

variable {rootId : ConsentId} {consents : List Consent} {t : ConsentTree} {parentId id : ConsentId}
  {ids : List ConsentId} {c : Consent}

theorem coherent_of_ofList (h : ofList rootId consents = .ok t) : Coherent consents :=
  (exists_ofList_eq_ok_iff.1 ⟨t, h⟩).1

theorem rootId?_of_ofList (h : ofList rootId consents = .ok t) (hc : c ∈ consents) :
    c.rootId? = some rootId :=
  rootId?_of_enrol (ofList_eq_ok h).1 c hc

/-! ## Entries -/

theorem edge_iff (h : ofList rootId consents = .ok t) :
    t.Edge parentId id ↔ ∃ c ∈ consents, c.id = id ∧ c.parentId? = some parentId := by
  rw [← (holds_of_ofList h).linked, Edge, Std.ExtTreeMap.getD_eq_getD_getElem?]
  cases t.edges[parentId]? <;> simp

theorem keys_edges_perm (h : ofList rootId consents = .ok t) :
    t.edges.keys.Perm (consents.map Consent.id) := by
  refine (List.perm_ext_iff_of_nodup Std.ExtTreeMap.nodup_keys
    (coherent_of_ofList h).nodup).2 fun id => ?_
  rw [Std.ExtTreeMap.mem_keys, mem_edges_iff h, List.mem_map]

theorem exists_entry (h : ofList rootId consents = .ok t) (hc : c ∈ consents) :
    ∃ children, t.edges[c.id]? = some children ∧
      ∀ id, id ∈ children ↔ ∃ k ∈ consents, k.id = id ∧ k.parentId? = some c.id := by
  have hmem : c.id ∈ t.edges := (mem_edges_iff h c.id).2 ⟨c, hc, rfl⟩
  refine ⟨t.edges.getD c.id ∅, Std.ExtTreeMap.getElem?_eq_some_getD hmem, fun id => ?_⟩
  rw [(holds_of_ofList h).linked]

theorem edge_id_iff (h : ofList rootId consents = .ok t) (hc : c ∈ consents) :
    t.Edge parentId c.id ↔ c.parentId? = some parentId := by
  rw [edge_iff h]
  constructor
  · rintro ⟨d, hd, hid, hparent⟩
    rwa [← (coherent_of_ofList h).eq_of_id hd hc hid]
  · exact fun hparent => ⟨c, hc, rfl, hparent⟩

/-! ## The root -/

theorem root_mem (h : ofList rootId consents = .ok t) : t.root ∈ consents :=
  (((holds_of_ofList h).stored _ _).1 (holds_of_ofList h).root).1

theorem path_eq_singleton_iff (h : ofList rootId consents = .ok t) (hc : c ∈ consents) :
    c.path = [rootId] ↔ c = t.root := by
  have hcoherent := coherent_of_ofList h
  have hid : ∀ d ∈ consents, d.path = [rootId] → d = t.root := fun d hd hpath =>
    hcoherent.eq_of_id hd (root_mem h)
      (((hcoherent.inOrder d hd).id_eq hpath).trans (rootId_of_ofList h).symm)
  refine ⟨hid c hc, ?_⟩
  rintro rfl
  obtain ⟨d, hd, hpath⟩ := hcoherent.exists_root hc (rootId?_of_ofList h hc)
  rwa [← hid d hd hpath]

theorem filter_path_eq_singleton (h : ofList rootId consents = .ok t) :
    consents.filter (·.path = [rootId]) = [t.root] := by
  have hnodup : consents.Nodup := (coherent_of_ofList h).nodup.of_map _
  rw [← List.perm_singleton, List.perm_ext_iff_of_nodup (hnodup.filter _) (List.nodup_singleton _)]
  intro c
  rw [List.mem_filter, decide_eq_true_eq, List.mem_singleton]
  constructor
  · rintro ⟨hc, hpath⟩
    exact (path_eq_singleton_iff h hc).1 hpath
  · rintro rfl
    exact ⟨root_mem h, (path_eq_singleton_iff h (root_mem h)).2 rfl⟩

/-- Only the root has no parent. -/
theorem exists_parent (h : ofList rootId consents = .ok t) (hc : c ∈ consents) (hne : c ≠ t.root) :
    ∃ p ∈ consents, c.parentId? = some p.id := by
  have hcoherent := coherent_of_ofList h
  cases hparent : c.parentId? with
  | none =>
    obtain ⟨rest, hpath⟩ := List.head?_eq_some_iff.1 (rootId?_of_ofList h hc)
    rcases List.eq_nil_or_concat' rest with rfl | ⟨above, last, rfl⟩
    · exact absurd ((path_eq_singleton_iff h hc).1 hpath) hne
    · rw [Consent.parentId?, hpath, ← List.cons_append, List.dropLast_concat,
        List.getLast?_eq_none_iff] at hparent
      cases hparent
  | some parentId =>
    obtain ⟨above, last, hpath⟩ := Consent.parentId?_eq_some_iff.1 hparent
    obtain ⟨p, hp, rfl, -⟩ := hcoherent.parent c hc above parentId last hpath
    exact ⟨p, hp, rfl⟩

theorem not_edge_rootId (h : ofList rootId consents = .ok t) :
    ¬ t.Edge parentId t.rootId := by
  rw [ConsentTree.rootId, edge_id_iff h (root_mem h), Consent.parentId?,
    (path_eq_singleton_iff h (root_mem h)).2 rfl]
  simp

/-! ## Chains of edges -/

theorem descent_concat_iff {above : List ConsentId} :
    t.Descent (above ++ [parentId, id]) ↔ t.Descent (above ++ [parentId]) ∧ t.Edge parentId id := by
  have hhead : (above ++ [parentId, id]).head? = (above ++ [parentId]).head? := by
    cases above <;> rfl
  constructor
  · rintro ⟨hstart, hchain⟩
    obtain ⟨hbefore, hedge, -⟩ := List.isChain_append_cons_cons.1 hchain
    exact ⟨⟨hhead ▸ hstart, hbefore⟩, hedge⟩
  · rintro ⟨⟨hstart, hbefore⟩, hedge⟩
    exact ⟨hhead ▸ hstart,
      List.isChain_append_cons_cons.2 ⟨hbefore, hedge, List.isChain_singleton _⟩⟩

/-- The chains of edges from the root down spell the paths of the consents. -/
theorem descent_iff_exists_path (h : ofList rootId consents = .ok t) :
    t.Descent ids ↔ ∃ c ∈ consents, c.path = ids := by
  have hcoherent := coherent_of_ofList h
  induction ids using List.reverseRecOn with
  | nil =>
    constructor
    · rintro ⟨hstart, -⟩
      cases hstart
    · rintro ⟨c, hc, hnil⟩
      exact absurd hnil (hcoherent.inOrder c hc).ne_nil
  | append_singleton ids id ih =>
    rcases List.eq_nil_or_concat' ids with rfl | ⟨above, parentId, rfl⟩
    · rw [List.nil_append]
      constructor
      · rintro ⟨hstart, -⟩
        obtain rfl : id = t.rootId := Option.some.inj hstart
        exact ⟨t.root, root_mem h, by
          rw [(path_eq_singleton_iff h (root_mem h)).2 rfl, rootId_of_ofList h]⟩
      · rintro ⟨c, hc, hpath⟩
        have hroot := rootId?_of_ofList h hc
        rw [Consent.rootId?, hpath, ← rootId_of_ofList h] at hroot
        exact ⟨hroot, List.isChain_singleton _⟩
    · rw [List.append_assoc, List.singleton_append]
      calc t.Descent (above ++ [parentId, id])
        _ ↔ t.Descent (above ++ [parentId]) ∧ t.Edge parentId id := descent_concat_iff
        _ ↔ (∃ p ∈ consents, p.path = above ++ [parentId]) ∧
              ∃ c ∈ consents, c.id = id ∧ c.parentId? = some parentId := and_congr ih (edge_iff h)
        _ ↔ ∃ c ∈ consents, c.path = above ++ [parentId, id] :=
          hcoherent.exists_path_concat_iff.symm

theorem descent_to_iff (h : ofList rootId consents = .ok t) (hc : c ∈ consents) :
    t.Descent ids ∧ ids.getLast? = some c.id ↔ ids = c.path := by
  have hcoherent := coherent_of_ofList h
  rw [descent_iff_exists_path h]
  constructor
  · rintro ⟨⟨d, hd, rfl⟩, hlast⟩
    rw [(hcoherent.inOrder d hd).ends, Option.some.injEq] at hlast
    rw [hcoherent.eq_of_id hd hc hlast]
  · rintro rfl
    exact ⟨⟨c, hc, rfl⟩, (hcoherent.inOrder c hc).ends⟩

/-! ## Depth -/

theorem isGreatest_maxDepth (h : ofList rootId consents = .ok t) :
    IsGreatest {n | ∃ c ∈ consents, c.path.length = n} t.maxDepth := by
  rw [(ofList_eq_ok h).2.2.2, List.foldl_max, Nat.zero_max]
  obtain ⟨deepest, hdeepest⟩ : ∃ n, (consents.map Consent.depth).max? = some n :=
    Option.isSome_iff_exists.1
      (List.isSome_max?_of_ne_nil (by simpa using (exists_ofList_eq_ok_iff.1 ⟨t, h⟩).2.2))
  rw [hdeepest, Option.getD_some]
  obtain ⟨hmem, hbound⟩ := List.max?_eq_some_iff.1 hdeepest
  constructor
  · exact List.mem_map.1 hmem
  · rintro n ⟨c, hc, rfl⟩
    exact hbound _ (List.mem_map_of_mem hc)

/-- The longest chain of edges that goes on until there are no children is as long as the longest
path. -/
theorem isGreatest_maxDepth_descent (h : ofList rootId consents = .ok t) :
    IsGreatest {n | ∃ ids leaf, t.Descent ids ∧ ids.getLast? = some leaf ∧
      (∀ child, ¬ t.Edge leaf child) ∧ ids.length = n} t.maxDepth := by
  obtain ⟨⟨c, hc, hdepth⟩, hbound⟩ := isGreatest_maxDepth h
  constructor
  · obtain ⟨hdescent, hlast⟩ := (descent_to_iff h hc).2 rfl
    refine ⟨c.path, c.id, hdescent, hlast, fun child hedge => ?_, hdepth⟩
    -- a child of the deepest consent would be deeper
    obtain ⟨above, hpath⟩ := List.getLast?_eq_some_iff.1 hlast
    rw [hpath] at hdescent
    obtain ⟨d, hd, hlonger⟩ :=
      (descent_iff_exists_path h).1 (descent_concat_iff.2 ⟨hdescent, hedge⟩)
    have hle : d.path.length ≤ t.maxDepth := hbound ⟨d, hd, rfl⟩
    rw [← hdepth, hlonger, hpath] at hle
    simp at hle
  · rintro n ⟨ids, leaf, hdescent, -, -, rfl⟩
    obtain ⟨c, hc, rfl⟩ := (descent_iff_exists_path h).1 hdescent
    exact hbound ⟨c, hc, rfl⟩

/-- The shape of a tree that was built. Its root is the one consent of the list whose path names the
root only. Each consent has one entry among the edges, which holds the consents whose parent it is,
so that each consent but the root is in the entry of its parent and in no other. The one chain of
edges from the root to a consent is its path. The depth is the greatest length of a path and of a
chain of edges from the root to a consent without children. -/
theorem edges_follow_paths (rootId : ConsentId) (consents : List Consent) (t : ConsentTree)
    (h : ofList rootId consents = .ok t) :
    (t.rootId = rootId ∧ consents.filter (·.path = [rootId]) = [t.root]) ∧
    t.edges.keys.Perm (consents.map Consent.id) ∧
    (∀ p ∈ consents, ∃ children, t.edges[p.id]? = some children ∧
      ∀ id, id ∈ children ↔ ∃ c ∈ consents, c.id = id ∧ c.parentId? = some p.id) ∧
    (∀ c ∈ consents, c ≠ t.root →
      ∃ p ∈ consents, c.parentId? = some p.id ∧ ∀ id, t.Edge id c.id ↔ id = p.id) ∧
    (∀ id, ¬ t.Edge id t.rootId) ∧
    (∀ c ∈ consents, ∀ ids, t.Descent ids ∧ ids.getLast? = some c.id ↔ ids = c.path) ∧
    IsGreatest {n | ∃ c ∈ consents, c.path.length = n} t.maxDepth ∧
    IsGreatest {n | ∃ ids leaf, t.Descent ids ∧ ids.getLast? = some leaf ∧
      (∀ child, ¬ t.Edge leaf child) ∧ ids.length = n} t.maxDepth := by
  refine ⟨⟨rootId_of_ofList h, filter_path_eq_singleton h⟩, keys_edges_perm h,
    fun p hp => exists_entry h hp, fun c hc hne => ?_, fun id => not_edge_rootId h,
    fun c hc ids => descent_to_iff h hc, isGreatest_maxDepth h, isGreatest_maxDepth_descent h⟩
  obtain ⟨p, hp, hparent⟩ := exists_parent h hc hne
  refine ⟨p, hp, hparent, fun id => ?_⟩
  rw [edge_id_iff h hc, hparent, Option.some.injEq, eq_comm]

def leafD : Consent :=
  { id := 4, client := "app", scopeValue := "D", path := [1, 4] }

def leafC : Consent :=
  { id := 3, client := "web", scopeValue := "C", path := [1, 2, 3] }

/-- The consents of one tree, with the deepest one first. -/
def fourConsents : List Consent :=
  [leafC, { id := 1, client := "app", scopeValue := "A", path := [1] }, leafD,
    { id := 2, client := "app", scopeValue := "B", path := [1, 2] }]

/-- A root with two children, one of which has a child of its own. -/
theorem edges_follow_paths_of_four :
    ∃ t, ofList 1 fourConsents = .ok t ∧
      t.root.scopeValue = "A" ∧ t.edges.keys.Perm [3, 1, 4, 2] ∧
      (∀ id, t.Edge id 4 ↔ id = 1) ∧
      (∀ ids, t.Descent ids ∧ ids.getLast? = some 3 ↔ ids = [1, 2, 3]) ∧ t.maxDepth = 3 := by
  have hbuilt : (ofList 1 fourConsents).map (fun t => t.root.scopeValue) = .ok "A" := by
    decide +kernel
  obtain ⟨t, ht, hvalue⟩ := map_eq_ok_iff.1 hbuilt
  obtain ⟨-, hkeys, -, hparent, -, hdescent, hdepth, -⟩ := edges_follow_paths _ _ t ht
  refine ⟨t, ht, hvalue, hkeys, ?_, ?_, ?_⟩
  · obtain ⟨p, -, hp, honly⟩ := hparent leafD (by decide)
      (fun heq => absurd (heq ▸ hvalue) (by decide))
    have hid : p.id = 1 := (Option.some.inj hp).symm
    rwa [hid] at honly
  · exact hdescent leafC (by decide)
  · refine hdepth.unique ⟨⟨leafC, by decide, rfl⟩, ?_⟩
    rintro n ⟨c, hc, rfl⟩
    revert c
    decide

end ConsentTree

end ScopeGrant
