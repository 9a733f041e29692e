import ScopeGrant.Consent.Tree
import ScopeGrant.Proofs.Except

/-!
# What a built tree holds

A tree that is built from a list of consents stores exactly these consents, each under its own
identifier, and its edges lead to each consent from the one that stands before it in its path. So
the children of a consent are those that the paths say (`mem_children_iff`).
-/

namespace ScopeGrant.ConsentTree

open Std (ExtTreeMap ExtTreeSet)

/-! ## One consent at a time -/

theorem enrol_eq_ok {rootId : ConsentId} {nodes nodes' : ExtTreeMap ConsentId Consent} {c : Consent}
    (h : enrol rootId nodes c = .ok nodes') :
    c.validate = .ok () ∧ c.rootId? = some rootId ∧ nodes[c.id]? = none ∧
      nodes' = nodes.insert c.id c := by
  unfold enrol at h
  obtain ⟨⟨⟩, hvalid, h⟩ := bind_eq_ok_iff.1 h
  simp only [throw_bind] at h
  split at h
  · cases h
  rename_i hroot
  split at h
  · cases h
  rename_i hnew
  cases h
  rw [ExtTreeMap.contains_eq_isSome_getElem?, Option.not_isSome_iff_eq_none] at hnew
  exact ⟨hvalid, Decidable.not_not.1 hroot, hnew, rfl⟩

theorem link_eq_ok {nodes : ExtTreeMap ConsentId Consent}
    {edges edges' : ExtTreeMap ConsentId (ExtTreeSet ConsentId)} {c : Consent}
    (h : link nodes edges c = .ok edges') :
    (c.parentId? = none ∧ edges' = edges) ∨
      ∃ parentId parent, c.parentId? = some parentId ∧ nodes[parentId]? = some parent ∧
        c.checkExtends parent = .ok () ∧
        edges' = edges.insert parentId ((edges.getD parentId ∅).insert c.id) := by
  unfold link at h
  split at h
  · rename_i hparent
    cases h
    exact Or.inl ⟨hparent, rfl⟩
  rename_i parentId hparent
  split at h
  · cases h
  rename_i parent hnode
  obtain ⟨⟨⟩, hextends, hedges⟩ := bind_eq_ok_iff.1 h
  cases hedges
  exact Or.inr ⟨parentId, parent, hparent, hnode, hextends, rfl⟩

/-! ## The whole list -/

/-- The consents of a list are stored, each under its own identifier, and nothing else is. -/
def Stored (consents : List Consent) (nodes : ExtTreeMap ConsentId Consent) : Prop :=
  ∀ id c, nodes[id]? = some c ↔ c ∈ consents ∧ c.id = id

/-- The edges of a list lead to each consent from the one before it in its path. -/
def Linked (consents : List Consent) (edges : ExtTreeMap ConsentId (ExtTreeSet ConsentId)) : Prop :=
  ∀ parentId id, id ∈ edges.getD parentId ∅ ↔
    ∃ c ∈ consents, c.id = id ∧ c.parentId? = some parentId

theorem stored_nil : Stored [] ∅ := by
  intro id c
  simp

theorem Stored.getElem?_eq_none_iff {consents : List Consent}
    {nodes : ExtTreeMap ConsentId Consent} (h : Stored consents nodes) {id : ConsentId} :
    nodes[id]? = none ↔ ∀ c ∈ consents, c.id ≠ id := by
  rw [Option.eq_none_iff_forall_ne_some]
  simp only [ne_eq, h id, not_and]

/-- A consent may be added under an identifier that has not been used. -/
theorem Stored.insert {consents : List Consent} {nodes : ExtTreeMap ConsentId Consent} {c : Consent}
    (h : Stored consents nodes) (hnew : nodes[c.id]? = none) :
    Stored (consents ++ [c]) (nodes.insert c.id c) := by
  intro id c'
  rw [ExtTreeMap.getElem?_insert, List.mem_append, List.mem_singleton, or_and_right, ← h]
  by_cases hid : c.id = id
  · -- nothing was stored under the identifier before, so no consent of the list had it
    subst hid
    simp only [Std.compare_self, if_true, hnew, Option.some.injEq, reduceCtorEq, false_or]
    constructor
    · rintro rfl
      exact ⟨rfl, rfl⟩
    · exact fun h => h.1.symm
  · have hne : ¬ (c' = c ∧ c'.id = id) := fun h => hid (h.1 ▸ h.2)
    simp [hid, hne]

theorem stored_of_enrol {rootId : ConsentId} {consents : List Consent}
    {nodes : ExtTreeMap ConsentId Consent} (h : consents.foldlM (enrol rootId) ∅ = .ok nodes) :
    Stored consents nodes := by
  refine foldlM_invariant (fun cs c nodes nodes' hstored hc => ?_) stored_nil h
  obtain ⟨-, -, hnew, rfl⟩ := enrol_eq_ok hc
  exact hstored.insert hnew

theorem rootId?_of_enrol {rootId : ConsentId} {consents : List Consent}
    {nodes : ExtTreeMap ConsentId Consent} (h : consents.foldlM (enrol rootId) ∅ = .ok nodes) :
    ∀ c ∈ consents, c.rootId? = some rootId := by
  refine foldlM_invariant (P := fun cs _ => ∀ c ∈ cs, c.rootId? = some rootId)
    (fun cs c nodes nodes' hroots hc => ?_) (by simp) h
  obtain ⟨-, hroot, -⟩ := enrol_eq_ok hc
  exact List.forall_mem_append.2 ⟨hroots, List.forall_mem_singleton.2 hroot⟩

theorem linked_of_link {nodes : ExtTreeMap ConsentId Consent} {consents : List Consent}
    {edges start : ExtTreeMap ConsentId (ExtTreeSet ConsentId)}
    (hstart : ∀ parentId id, id ∉ start.getD parentId ∅)
    (h : consents.foldlM (link nodes) start = .ok edges) : Linked consents edges := by
  refine foldlM_invariant (fun cs c edges edges' hlinked hc => ?_) ?_ h
  · intro parentId id
    simp only [List.mem_append, List.mem_singleton, or_and_right, exists_or, exists_eq_left]
    rw [← hlinked]
    rcases link_eq_ok hc with ⟨hparent, rfl⟩ | ⟨before, parent, hparent, -, -, rfl⟩
    · simp [hparent]
    · rw [hparent, ExtTreeMap.getD_insert]
      by_cases hbefore : before = parentId
      · subst hbefore
        simp [ExtTreeSet.mem_insert, or_comm]
      · simp [hbefore]
  · intro parentId id
    simp [hstart]

/-- Before any edge is added, no consent has children. -/
theorem getD_ofList_empty (consents : List Consent) (id : ConsentId) :
    (ExtTreeMap.ofList (consents.map fun c => (c.id, (∅ : ExtTreeSet ConsentId)))).getD id ∅ =
      ∅ := by
  rw [ExtTreeMap.ofList_eq_insertMany_empty, ExtTreeMap.getD_eq_getD_getElem?,
    ExtTreeMap.getElem?_insertMany_list, ExtTreeMap.getElem?_empty, Option.or_none,
    List.findSomeRev?_eq_findSome?_reverse]
  cases hfound : List.findSome? _ _ with
  | none => rfl
  | some children =>
    obtain ⟨entry, hentry, hsome⟩ := List.exists_of_findSome?_eq_some hfound
    obtain ⟨c, -, rfl⟩ := List.mem_map.1 (List.mem_reverse.1 hentry)
    simpa using (Option.ite_none_right_eq_some.1 hsome).2.symm

/-- What building from a list gives. -/
structure Holds (t : ConsentTree) (consents : List Consent) : Prop where
  stored : Stored consents t.nodes
  linked : Linked consents t.edges
  root : t.get? t.rootId = some t.root

/-- A tree that is built stores what its consents enrol, its root stands under the identifier of the
root, its edges are what its consents link, and its depth is that of the deepest of them. -/
theorem ofList_eq_ok {rootId : ConsentId} {consents : List Consent} {t : ConsentTree}
    (h : ofList rootId consents = .ok t) :
    consents.foldlM (enrol rootId) ∅ = .ok t.nodes ∧ t.nodes[rootId]? = some t.root ∧
      consents.foldlM (link t.nodes) (.ofList (consents.map fun c => (c.id, ∅))) = .ok t.edges ∧
      t.maxDepth = (consents.map Consent.depth).foldl max 0 := by
  unfold ofList at h
  obtain ⟨nodes, hnodes, h⟩ := bind_eq_ok_iff.1 h
  split at h
  · cases h
  rename_i root hroot
  obtain ⟨edges, hedges, h⟩ := bind_eq_ok_iff.1 h
  cases h
  exact ⟨hnodes, hroot, hedges, rfl⟩

theorem rootId_of_ofList {rootId : ConsentId} {consents : List Consent} {t : ConsentTree}
    (h : ofList rootId consents = .ok t) : t.rootId = rootId := by
  obtain ⟨hnodes, hroot, -⟩ := ofList_eq_ok h
  exact ((stored_of_enrol hnodes rootId t.root).1 hroot).2

theorem size_of_ofList {rootId : ConsentId} {consents : List Consent} {t : ConsentTree}
    (h : ofList rootId consents = .ok t) : t.size = consents.length := by
  refine foldlM_invariant (P := fun cs nodes => nodes.size = cs.length)
    (fun cs c nodes nodes' hsize hc => ?_) rfl (ofList_eq_ok h).1
  obtain ⟨-, -, hnew, rfl⟩ := enrol_eq_ok hc
  rw [ExtTreeMap.size_insert, ExtTreeMap.contains_eq_isSome_getElem?, hnew, hsize]
  simp

theorem holds_of_ofList {rootId : ConsentId} {consents : List Consent} {t : ConsentTree}
    (h : ofList rootId consents = .ok t) : t.Holds consents := by
  obtain ⟨hnodes, hroot, hedges, -⟩ := ofList_eq_ok h
  refine ⟨stored_of_enrol hnodes, linked_of_link (fun id => ?_) hedges, ?_⟩
  · rw [getD_ofList_empty]
    exact fun _ => ExtTreeSet.not_mem_empty
  · rw [rootId_of_ofList h]
    exact hroot

/-! ## Children -/

/-- The consent `k` is a child of `c` in the tree: it is stored there, and its path names `c`
directly before it. -/
def IsChild (t : ConsentTree) (c k : Consent) : Prop :=
  t.get? k.id = some k ∧ k.parentId? = some c.id

theorem Holds.mem_children_iff {t : ConsentTree} {consents : List Consent} (h : t.Holds consents)
    {c k : Consent} : k ∈ t.children c.id ↔ t.IsChild c k := by
  simp only [children, List.mem_filterMap, ExtTreeSet.mem_toList, h.linked c.id, IsChild]
  constructor
  · rintro ⟨id, ⟨k', hk', rfl, hparent⟩, hget⟩
    obtain rfl : k' = k := Option.some.inj (((h.stored _ k').2 ⟨hk', rfl⟩).symm.trans hget)
    exact ⟨hget, hparent⟩
  · rintro ⟨hget, hparent⟩
    exact ⟨k.id, ⟨k, ((h.stored _ k).1 hget).1, rfl, hparent⟩, hget⟩

end ScopeGrant.ConsentTree
