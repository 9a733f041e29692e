import ScopeGrant.Consent.Forest
import ScopeGrant.Proofs.Consent.Coherent
import ScopeGrant.Proofs.Consent.Tree

/-!
# When trees and forests are built

A forest is built in two passes over the list, one that looks at each consent beside those before it
and one that looks for its parent. The first fault that the first pass meets is the error, or else
the first fault of the second pass (`EntryFault`, `ParentFault`). A list without faults is coherent,
so the consents of each root hang together as well, and no tree below one of the roots is refused.
-/

namespace ScopeGrant

open Std (ExtTreeMap ExtTreeSet)
open ConsentTree (Stored stored_nil)

/-! ## Faults -/

/-- What is wrong with a consent in itself, or beside those that come before it in the list. -/
inductive EntryFault (earlier : List Consent) (c : Consent) : ForestError → Prop where
  | path {fault : PathFault} (h : c.HasFault fault) : EntryFault earlier c (.invalidPath c.id fault)
  | duplicate {b : Consent} (hc : c.InOrder) (hb : b ∈ earlier) (hid : b.id = c.id) :
    EntryFault earlier c (.duplicate c.id)

/-- What is wrong with a consent beside its parent, which stands before it in its path. -/
inductive ParentFault (consents : List Consent) (c : Consent) : ForestError → Prop where
  | missing {above : List ConsentId} {parentId last : ConsentId}
      (hpath : c.path = above ++ [parentId, last]) (h : ∀ p ∈ consents, p.id ≠ parentId) :
    ParentFault consents c (.missingParent c.id parentId)
  | notExtending {above : List ConsentId} {parentId last : ConsentId} {p : Consent}
      (hpath : c.path = above ++ [parentId, last]) (hp : p ∈ consents) (hid : p.id = parentId)
      (h : p.path ≠ above ++ [parentId]) :
    ParentFault consents c (.invalidPath c.id (.notExtending parentId))

theorem not_entryFault_iff {earlier : List Consent} {c : Consent} :
    (∀ e, ¬ EntryFault earlier c e) ↔ c.InOrder ∧ c.id ∉ earlier.map Consent.id := by
  constructor
  · intro h
    have hc : c.InOrder := by
      rw [← Consent.pathFault?_eq_none_iff, Option.eq_none_iff_forall_ne_some]
      exact fun fault hfault => h _ (.path (Consent.pathFault?_eq_some_iff.1 hfault))
    refine ⟨hc, fun hmem => ?_⟩
    obtain ⟨b, hb, hid⟩ := List.mem_map.1 hmem
    exact h _ (.duplicate hc hb hid)
  · rintro ⟨hc, hnew⟩ e (hfault | ⟨-, hb, hid⟩)
    · rw [← Consent.pathFault?_eq_some_iff, Consent.pathFault?_eq_none_iff.2 hc] at hfault
      cases hfault
    · exact hnew (hid ▸ List.mem_map_of_mem hb)

theorem faultless_entryFault_iff {consents : List Consent} :
    Faultless EntryFault consents ↔
      (∀ c ∈ consents, c.InOrder) ∧ (consents.map Consent.id).Nodup := by
  induction consents using List.reverseRecOn with
  | nil => simp [faultless_nil]
  | append_singleton consents c ih =>
    rw [faultless_concat, ih, not_entryFault_iff, List.map_append, List.map_singleton,
      ← List.concat_eq_append, ← List.concat_eq_append, List.nodup_concat]
    simp only [List.concat_eq_append, List.forall_mem_append, List.forall_mem_singleton]
    tauto

/-- A list is coherent if neither of the two passes meets a fault. -/
theorem coherent_iff_faultless {consents : List Consent} :
    Coherent consents ↔
      Faultless EntryFault consents ∧ Faultless (fun _ => ParentFault consents) consents := by
  rw [faultless_entryFault_iff, faultless_iff_forall_mem]
  constructor
  · intro h
    refine ⟨⟨h.inOrder, h.nodup⟩, ?_⟩
    rintro c hc _ (⟨hpath, hmissing⟩ | ⟨hpath, hp, hid, hne⟩)
    · obtain ⟨p, hp, hid, -⟩ := h.parent c hc _ _ _ hpath
      exact hmissing p hp hid
    · obtain ⟨p', hp', hid', hpath'⟩ := h.parent c hc _ _ _ hpath
      rw [h.eq_of_id hp hp' (hid.trans hid'.symm)] at hne
      exact hne hpath'
  · rintro ⟨⟨hinOrder, hnodup⟩, hparent⟩
    refine ⟨hinOrder, hnodup, fun c hc above parentId last hpath => ?_⟩
    by_contra hnone
    push Not at hnone
    by_cases hmissing : ∀ p ∈ consents, p.id ≠ parentId
    · exact hparent c hc _ (.missing hpath hmissing)
    · push Not at hmissing
      obtain ⟨p, hp, hid⟩ := hmissing
      exact hparent c hc _ (.notExtending hpath hp hid (hnone p hp hid))

/-! ## One consent at a time -/

section Step

variable {consents : List Consent} {nodes nodes' : ExtTreeMap ConsentId Consent} {c : Consent}
  {e : ForestError}

namespace ConsentForest

theorem enrol_eq (nodes : ExtTreeMap ConsentId Consent) (c : Consent) :
    enrol nodes c =
      match c.pathFault? with
      | some fault => .error (.invalidPath c.id fault)
      | none =>
        match (nodes[c.id]? : Option Consent) with
        | some _ => .error (.duplicate c.id)
        | none => .ok (nodes.insert c.id c) := by
  unfold enrol Consent.validate
  rw [ExtTreeMap.contains_eq_isSome_getElem?]
  cases c.pathFault? with
  | some fault => rfl
  | none => cases nodes[c.id]? <;> rfl

theorem enrol_eq_ok_iff :
    enrol nodes c = .ok nodes' ↔
      c.InOrder ∧ nodes[c.id]? = none ∧ nodes' = nodes.insert c.id c := by
  rw [enrol_eq, ← Consent.pathFault?_eq_none_iff]
  cases c.pathFault? with
  | some fault => simp
  | none => cases nodes[c.id]? <;> simp [eq_comm]

theorem enrol_eq_error_iff (h : Stored consents nodes) :
    enrol nodes c = .error e ↔ EntryFault consents c e := by
  rw [enrol_eq]
  constructor
  · intro he
    split at he
    · rename_i fault hfault
      cases he
      exact .path (Consent.pathFault?_eq_some_iff.1 hfault)
    rename_i hnone
    split at he
    · rename_i b hb
      cases he
      obtain ⟨hmem, hid⟩ := (h c.id b).1 hb
      exact .duplicate (Consent.pathFault?_eq_none_iff.1 hnone) hmem hid
    · cases he
  · rintro (hfault | @⟨b, hc, hb, hid⟩)
    · rw [Consent.pathFault?_eq_some_iff.2 hfault]
    · rw [Consent.pathFault?_eq_none_iff.2 hc, (h c.id b).2 ⟨hb, hid⟩]

theorem checkParent_eq_error_iff (h : Stored consents nodes) :
    checkParent nodes c = .error e ↔ ParentFault consents c e := by
  unfold checkParent
  constructor
  · intro he
    split at he
    · cases he
    rename_i parentId hparent
    obtain ⟨above, last, hpath⟩ := Consent.parentId?_eq_some_iff.1 hparent
    split at he
    · rename_i hnone
      cases he
      exact .missing hpath (h.getElem?_eq_none_iff.1 hnone)
    rename_i p hp
    obtain ⟨hmem, hid⟩ := (h parentId p).1 hp
    unfold Consent.checkExtends at he
    split at he
    · cases he
    rename_i hne
    cases he
    rw [hid]
    exact .notExtending hpath hmem hid (by simpa [hpath] using hne)
  · rintro (@⟨above, parentId, last, hpath, hmissing⟩ |
      @⟨above, parentId, last, p, hpath, hp, hid, hne⟩)
    · rw [Consent.parentId?_eq_some_iff.2 ⟨above, last, hpath⟩]
      simp only [h.getElem?_eq_none_iff.2 hmissing]
    · rw [Consent.parentId?_eq_some_iff.2 ⟨above, last, hpath⟩]
      simp only [(h parentId p).2 ⟨hp, hid⟩]
      rw [Consent.checkExtends, hpath, List.dropLast_append_cons, if_neg (by simpa using hne), hid]

end ConsentForest

namespace ConsentTree

theorem enrol_of_rootId {rootId : ConsentId} (h : c.rootId? = some rootId) :
    enrol rootId nodes c = ConsentForest.enrol nodes c := by
  unfold enrol ConsentForest.enrol
  rw [h, if_neg (not_not.2 rfl)]

/-- An edge is added if there is nothing wrong with the consent beside its parent. -/
theorem link_eq (edges : ExtTreeMap ConsentId (ExtTreeSet ConsentId)) :
    link nodes edges c = (ConsentForest.checkParent nodes c).map fun _ =>
      match c.parentId? with
      | none => edges
      | some parentId => edges.insert parentId ((edges.getD parentId ∅).insert c.id) := by
  unfold link ConsentForest.checkParent
  cases c.parentId? with
  | none => rfl
  | some parentId =>
    dsimp only
    cases nodes[parentId]? with
    | none => rfl
    | some p =>
      dsimp only
      cases c.checkExtends p <;> rfl

theorem link_eq_error_iff (h : Stored consents nodes)
    {edges : ExtTreeMap ConsentId (ExtTreeSet ConsentId)} :
    link nodes edges c = .error e ↔ ParentFault consents c e := by
  rw [link_eq, ← ConsentForest.checkParent_eq_error_iff h]
  cases ConsentForest.checkParent nodes c <;> simp [Except.map]

end ConsentTree

end Step

/-! ## Whole passes -/

section Pass

variable {consents : List Consent} {byId : ExtTreeMap ConsentId Consent}

theorem ConsentTree.Stored.enrol {nodes : ExtTreeMap ConsentId Consent} {c : Consent}
    (h : Stored consents nodes) (hc : ConsentForest.enrol nodes c = .ok byId) :
    Stored (consents ++ [c]) byId := by
  obtain ⟨-, hnew, rfl⟩ := ConsentForest.enrol_eq_ok_iff.1 hc
  exact h.insert hnew

namespace ConsentForest

theorem stored_of_enrol (h : consents.foldlM enrol ∅ = .ok byId) : Stored consents byId :=
  foldlM_invariant (fun _ _ _ _ hstored hc => hstored.enrol hc) stored_nil h

theorem foldlM_enrol_eq_error_iff {e : ForestError} :
    consents.foldlM enrol ∅ = .error e ↔ FirstFault EntryFault consents e :=
  foldlM_eq_error_iff (fun _ _ _ _ h => enrol_eq_error_iff h)
    (fun _ _ _ _ hstored hc => hstored.enrol hc) stored_nil

theorem exists_foldlM_enrol_eq_ok_iff :
    (∃ byId, consents.foldlM enrol ∅ = .ok byId) ↔ Faultless EntryFault consents :=
  exists_foldlM_eq_ok_iff (fun _ _ _ _ h => enrol_eq_error_iff h)
    (fun _ _ _ _ hstored hc => hstored.enrol hc) stored_nil

theorem forM_checkParent_eq_error_iff (h : Stored consents byId) {e : ForestError} :
    consents.forM (checkParent byId) = .error e ↔
      FirstFault (fun _ => ParentFault consents) consents e := by
  rw [forM_eq_error_iff]
  simp only [checkParent_eq_error_iff h]

theorem forM_checkParent_eq_ok_iff (h : Stored consents byId) :
    consents.forM (checkParent byId) = .ok () ↔
      Faultless (fun _ => ParentFault consents) consents := by
  rw [forM_eq_ok_iff]
  simp only [checkParent_eq_error_iff h]

end ConsentForest

namespace ConsentTree

theorem foldlM_enrol_of_rootId {rootId : ConsentId} (h : ∀ c ∈ consents, c.rootId? = some rootId)
    (nodes : ExtTreeMap ConsentId Consent) :
    consents.foldlM (enrol rootId) nodes = consents.foldlM ConsentForest.enrol nodes := by
  induction consents generalizing nodes with
  | nil => rfl
  | cons c consents ih =>
    obtain ⟨hc, hrest⟩ := List.forall_mem_cons.1 h
    rw [List.foldlM_cons, List.foldlM_cons, enrol_of_rootId hc]
    exact congrArg _ (funext (ih hrest))

theorem exists_foldlM_link_eq_ok_iff (h : Stored consents byId)
    (start : ExtTreeMap ConsentId (ExtTreeSet ConsentId)) :
    (∃ edges, consents.foldlM (link byId) start = .ok edges) ↔
      Faultless (fun _ => ParentFault consents) consents :=
  exists_foldlM_eq_ok_iff_of_const (f := link byId) (fun _ _ _ => link_eq_error_iff h) start

/-- A tree is built from consents that hang together, if they have the same root. -/
theorem exists_ofList_eq_ok {rootId : ConsentId} (h : Coherent consents)
    (hroot : ∀ c ∈ consents, c.rootId? = some rootId) (hne : consents ≠ []) :
    ∃ t, ofList rootId consents = .ok t := by
  obtain ⟨hentry, hparent⟩ := coherent_iff_faultless.1 h
  obtain ⟨nodes, hnodes⟩ := ConsentForest.exists_foldlM_enrol_eq_ok_iff.2 hentry
  have hstored := ConsentForest.stored_of_enrol hnodes
  -- the root of any of the consents is stored
  obtain ⟨root, hget⟩ : ∃ root, nodes[rootId]? = some root := by
    obtain ⟨c, hc⟩ := List.exists_mem_of_ne_nil _ hne
    obtain ⟨root, hmem, hpath⟩ := h.exists_root hc (hroot c hc)
    exact ⟨root, (hstored rootId root).2 ⟨hmem, (h.inOrder root hmem).id_eq hpath⟩⟩
  obtain ⟨edges, hedges⟩ := (exists_foldlM_link_eq_ok_iff hstored _).2 hparent
  rw [ofList, foldlM_enrol_of_rootId hroot, hnodes, ok_bind, hget]
  dsimp only
  rw [hedges]
  exact ⟨_, rfl⟩

/-- A tree is built exactly from consents that hang together and have the same root. -/
theorem exists_ofList_eq_ok_iff {rootId : ConsentId} :
    (∃ t, ofList rootId consents = .ok t) ↔
      Coherent consents ∧ (∀ c ∈ consents, c.rootId? = some rootId) ∧ consents ≠ [] := by
  constructor
  · rintro ⟨t, ht⟩
    obtain ⟨hnodes, hget, hedges, -⟩ := ofList_eq_ok ht
    have hroot := rootId?_of_enrol hnodes
    rw [foldlM_enrol_of_rootId hroot] at hnodes
    have hstored := ConsentForest.stored_of_enrol hnodes
    have hentry := ConsentForest.exists_foldlM_enrol_eq_ok_iff.1 ⟨_, hnodes⟩
    have hparent := (exists_foldlM_link_eq_ok_iff hstored _).1 ⟨_, hedges⟩
    have hmem := ((hstored rootId t.root).1 hget).1
    exact ⟨coherent_iff_faultless.2 ⟨hentry, hparent⟩, hroot, List.ne_nil_of_mem hmem⟩
  · rintro ⟨h, hroot, hne⟩
    exact exists_ofList_eq_ok h hroot hne

end ConsentTree

end Pass

/-! ## Groups -/

namespace ConsentForest

/-- The consents whose path begins at `root`, in the order of the list. -/
def group (consents : List Consent) (root : ConsentId) : List Consent :=
  consents.filter (·.rootId? == some root)

/-- The consents by the root of their tree, put there one after the other. -/
def groups (consents : List Consent) : ExtTreeMap ConsentId (List Consent) :=
  consents.foldl addToGroup ∅

/-- Taking the consents out of an index by their identifiers yields each of them once. -/
theorem foldl_moveToGroup {consents : List Consent} {byId : ExtTreeMap ConsentId Consent}
    (hget : ∀ c ∈ consents, byId[c.id]? = some c) (hnodup : (consents.map Consent.id).Nodup)
    (found : ExtTreeMap ConsentId (List Consent)) :
    ((consents.map Consent.id).foldl moveToGroup (byId, found)).2 =
      consents.foldl addToGroup found := by
  induction consents generalizing byId found with
  | nil => rfl
  | cons c consents ih =>
    obtain ⟨hc, hrest⟩ := List.forall_mem_cons.1 hget
    obtain ⟨hnot, hnodup⟩ := List.nodup_cons.1 hnodup
    rw [List.map_cons, List.foldl_cons, List.foldl_cons, moveToGroup, hc]
    refine ih (fun d hd => ?_) hnodup _
    -- the consents that are left have other identifiers than the one taken out
    have hne : c.id ≠ d.id := fun h => hnot (h ▸ List.mem_map_of_mem hd)
    rw [ExtTreeMap.getElem?_erase, if_neg fun h => hne (Std.compare_eq_iff_eq.1 h), hrest d hd]

theorem groupByRoot_eq {consents : List Consent} {byId : ExtTreeMap ConsentId Consent}
    (h : Stored consents byId) (hnodup : (consents.map Consent.id).Nodup) :
    groupByRoot byId (consents.map Consent.id) = groups consents :=
  foldl_moveToGroup (fun c hc => (h c.id c).2 ⟨hc, rfl⟩) hnodup ∅

theorem groups_concat (consents : List Consent) (c : Consent) :
    groups (consents ++ [c]) = addToGroup (groups consents) c := by
  rw [groups, List.foldl_append]
  rfl

theorem group_concat (consents : List Consent) (c : Consent) (root : ConsentId) :
    group (consents ++ [c]) root =
      if c.rootId? = some root then group consents root ++ [c] else group consents root := by
  rw [group, List.filter_append]
  split
  · rename_i hroot
    simp [group, hroot]
  · rename_i hroot
    simp [group, hroot]

theorem getElem?_groups (consents : List Consent) (root : ConsentId) :
    (groups consents)[root]? =
      if group consents root = [] then none else some (group consents root) := by
  induction consents using List.reverseRecOn with
  | nil => simp [groups, group]
  | append_singleton consents c ih =>
    rw [groups_concat, group_concat, addToGroup]
    cases hroot : c.rootId? with
    | none => simpa using ih
    | some root' =>
      rw [ExtTreeMap.getElem?_insert]
      by_cases heq : root' = root
      · subst heq
        rw [ExtTreeMap.getD_eq_getD_getElem?, ih, Std.compare_self, if_pos rfl, if_pos rfl]
        split <;> simp_all
      · have hcompare : compare root' root ≠ .eq := fun h => heq (Std.compare_eq_iff_eq.1 h)
        have hother : some root' ≠ some root := fun h => heq (Option.some.inj h)
        rw [if_neg hcompare, if_neg hother, ih]

/-- The groups are those of the roots that occur. -/
theorem mem_toList_groups {consents members : List Consent} {root : ConsentId} :
    (root, members) ∈ (groups consents).toList ↔
      members = group consents root ∧ members ≠ [] := by
  rw [ExtTreeMap.mem_toList_iff_getElem?_eq_some, getElem?_groups]
  split
  · rename_i hnil
    simp_all
  · rename_i hne
    rw [Option.some.injEq, eq_comm]
    exact ⟨fun h => ⟨h, h ▸ hne⟩, And.left⟩

/-- No tree of a group is refused, if the whole list hangs together. -/
theorem exists_ofList_group {consents : List Consent} (h : Coherent consents)
    {entry : ConsentId × List Consent} (hentry : entry ∈ (groups consents).toList) :
    ∃ t, ConsentTree.ofList entry.1 entry.2 = .ok t := by
  obtain ⟨root, members⟩ := entry
  obtain ⟨rfl, hne⟩ := mem_toList_groups.1 hentry
  refine ConsentTree.exists_ofList_eq_ok (h.filter_root root) (fun c hc => ?_) hne
  simpa using (List.mem_filter.1 hc).2

/-- Behind both passes the trees are those of the groups. -/
theorem ofList_eq_ok {consents : List Consent} {f : ConsentForest} (h : ofList consents = .ok f) :
    ∃ byId, consents.foldlM enrol ∅ = .ok byId ∧ consents.forM (checkParent byId) = .ok () ∧
      (groupByRoot byId (consents.map Consent.id)).toList.mapM
        (fun entry => ConsentTree.ofList entry.1 entry.2) = .ok f.trees := by
  unfold ofList at h
  obtain ⟨byId, hbyId, h⟩ := bind_eq_ok_iff.1 h
  obtain ⟨⟨⟩, hparents, h⟩ := bind_eq_ok_iff.1 h
  obtain ⟨trees, htrees, h⟩ := bind_eq_ok_iff.1 h
  cases h
  exact ⟨byId, hbyId, hparents, htrees⟩

theorem coherent_of_passes {consents : List Consent} {byId : ExtTreeMap ConsentId Consent}
    (hbyId : consents.foldlM enrol ∅ = .ok byId)
    (hparents : consents.forM (checkParent byId) = .ok ()) : Coherent consents :=
  coherent_iff_faultless.2 ⟨exists_foldlM_enrol_eq_ok_iff.1 ⟨byId, hbyId⟩,
    (forM_checkParent_eq_ok_iff (stored_of_enrol hbyId)).1 hparents⟩

theorem coherent_of_ofList {consents : List Consent} {f : ConsentForest}
    (h : ofList consents = .ok f) : Coherent consents := by
  obtain ⟨byId, hbyId, hparents, -⟩ := ofList_eq_ok h
  exact coherent_of_passes hbyId hparents

theorem exists_ofList_eq_ok_iff {consents : List Consent} :
    (∃ f, ofList consents = .ok f) ↔ Coherent consents := by
  constructor
  · rintro ⟨f, hf⟩
    exact coherent_of_ofList hf
  · intro h
    obtain ⟨hentry, hparent⟩ := coherent_iff_faultless.1 h
    obtain ⟨byId, hbyId⟩ := exists_foldlM_enrol_eq_ok_iff.2 hentry
    have hparents := (forM_checkParent_eq_ok_iff (stored_of_enrol hbyId)).2 hparent
    obtain ⟨trees, htrees⟩ := exists_mapM_eq_ok_iff.2 fun entry hentry =>
      exists_ofList_group h hentry
    rw [ofList, hbyId, ok_bind, hparents, ok_bind, groupByRoot_eq (stored_of_enrol hbyId) h.nodup]
    exact ⟨_, bind_eq_ok_iff.2 ⟨trees, htrees, rfl⟩⟩

theorem ofList_eq_error_iff {consents : List Consent} {e : ForestError} :
    ofList consents = .error e ↔
      FirstFault EntryFault consents e ∨
        Faultless EntryFault consents ∧
          FirstFault (fun _ => ParentFault consents) consents e := by
  cases hpass : consents.foldlM enrol ∅ with
  | error e' =>
    have hfirst : ∀ e, FirstFault EntryFault consents e ↔ e' = e := by
      intro e
      rw [← foldlM_enrol_eq_error_iff, hpass, Except.error.injEq]
    have hnot : ¬ Faultless EntryFault consents := fun h =>
      faultless_iff.1 h e' ((hfirst e').2 rfl)
    rw [ofList, hpass, hfirst, error_bind]
    simp [hnot]
  | ok byId =>
    have hentry := exists_foldlM_enrol_eq_ok_iff.1 ⟨byId, hpass⟩
    have hstored := stored_of_enrol hpass
    simp only [hentry, faultless_iff.1 hentry e, false_or, true_and]
    rw [← forM_checkParent_eq_error_iff hstored]
    cases hparents : consents.forM (checkParent byId) with
    | error e' =>
      rw [ofList, hpass, ok_bind, hparents, error_bind]
      simp
    | ok =>
      have hparent := (forM_checkParent_eq_ok_iff hstored).1 hparents
      obtain ⟨f, hf⟩ := exists_ofList_eq_ok_iff.2 (coherent_iff_faultless.2 ⟨hentry, hparent⟩)
      rw [hf]
      simp

/-- A list is put together to a forest exactly if it hangs together. Otherwise the error is the
first fault of a consent in itself or beside those before it, or, where there is none, the first
fault of a consent beside its parent. Behind the two passes no tree is refused. -/
theorem ofList_succeeds_iff_coherent_and_fails_with_first_fault (consents : List Consent) :
    ((∃ f, ofList consents = .ok f) ↔ Coherent consents) ∧
    (∀ e, ofList consents = .error e ↔
      FirstFault EntryFault consents e ∨
        Faultless EntryFault consents ∧
          FirstFault (fun _ => ParentFault consents) consents e) ∧
    ∀ byId, consents.foldlM enrol ∅ = .ok byId → consents.forM (checkParent byId) = .ok () →
      ∀ entry ∈ (groupByRoot byId (consents.map Consent.id)).toList,
        ∃ t, ConsentTree.ofList entry.1 entry.2 = .ok t := by
  refine ⟨exists_ofList_eq_ok_iff, fun _ => ofList_eq_error_iff, ?_⟩
  intro byId hbyId hparents entry hentry
  have hcoherent := coherent_of_passes hbyId hparents
  rw [groupByRoot_eq (stored_of_enrol hbyId) hcoherent.nodup] at hentry
  exact exists_ofList_group hcoherent hentry

def orphan : Consent :=
  { id := 3, client := "app", scopeValue := "c", path := [9, 3] }

def loneRoot : Consent :=
  { id := 1, client := "app", scopeValue := "a", path := [1] }

/-- A consent with the identifier of the root, whose path ends with another one. -/
def misplaced : Consent :=
  { id := 1, client := "app", scopeValue := "b", path := [1, 2] }

/-- The parent of the first consent is missing, but the last one is found first: its path is not in
order, which counts before its identifier being repeated. Without these two a tree is built. -/
theorem ofList_fails_with_late_fault :
    ofList [orphan, loneRoot, misplaced] = .error (.invalidPath 1 .wrongEnd) ∧
    ofList [orphan, loneRoot] = .error (.missingParent 3 9) ∧
    ∃ byId, [loneRoot].foldlM enrol ∅ = .ok byId ∧ [loneRoot].forM (checkParent byId) = .ok () ∧
      ∀ entry ∈ (groupByRoot byId [1]).toList,
        ∃ t, ConsentTree.ofList entry.1 entry.2 = .ok t := by
  have hentry : Faultless EntryFault [orphan, loneRoot] := faultless_entryFault_iff.2 (by decide)
  refine ⟨?_, ?_, ?_⟩
  · refine (ofList_succeeds_iff_coherent_and_fails_with_first_fault _).2.1 _ |>.2 (Or.inl ?_)
    exact ⟨[_, _], _, [], rfl, hentry, .path (.wrongEnd (by decide) (by decide))⟩
  · refine (ofList_succeeds_iff_coherent_and_fails_with_first_fault _).2.1 _ |>.2
      (Or.inr ⟨hentry, ?_⟩)
    refine ⟨[], _, [_], rfl, faultless_nil, ?_⟩
    exact @ParentFault.missing _ _ [] 9 3 rfl (by decide)
  · have hroot : Faultless EntryFault [loneRoot] := faultless_entryFault_iff.2 (by decide)
    obtain ⟨byId, hbyId⟩ := exists_foldlM_enrol_eq_ok_iff.2 hroot
    have hparents : [loneRoot].forM (checkParent byId) = .ok () := rfl
    exact ⟨byId, hbyId, hparents,
      (ofList_succeeds_iff_coherent_and_fails_with_first_fault _).2.2 byId hbyId hparents⟩

end ConsentForest

end ScopeGrant
