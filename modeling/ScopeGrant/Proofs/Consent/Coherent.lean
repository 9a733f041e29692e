import ScopeGrant.Consent.Record
import Mathlib.Data.List.Infix
import Mathlib.Data.List.Nodup

/-!
# Lists of consents that hang together

A path is in order if it ends with the consent itself and names no consent twice. A list of consents
is coherent if their paths are in order, their identifiers differ, and the parent of each consent is
in the list, with the path that leads to it. Then every beginning of a path is itself the path of a
consent in the list (`Coherent.exists_of_beginning`). So the root of each consent is there, and the
consents with one root are a coherent list of their own (`Coherent.filter_root`). The order of the
list does not matter (`Coherent.perm`), and two coherent lists make up a coherent one if they have
no identifier in common (`Coherent.append`).
-/

namespace ScopeGrant

namespace Consent

/-! ## Single paths -/

/-- The path names something, it ends with the consent itself and it names no consent twice. -/
structure InOrder (c : Consent) : Prop where
  ne_nil : c.path ≠ []
  ends : c.path.getLast? = some c.id
  nodup : c.path.Nodup

/-- What is wrong with a path that is not in order. -/
inductive HasFault (c : Consent) : PathFault → Prop where
  | empty (h : c.path = []) : HasFault c .empty
  | wrongEnd (hne : c.path ≠ []) (h : c.path.getLast? ≠ some c.id) : HasFault c .wrongEnd
  | repeats (hends : c.path.getLast? = some c.id) (h : ¬ c.path.Nodup) : HasFault c .repeats

variable {c p : Consent}

theorem pathFault?_eq_some_iff {fault : PathFault} :
    c.pathFault? = some fault ↔ c.HasFault fault := by
  constructor
  · intro h
    unfold pathFault? at h
    split at h
    · rename_i hlast
      cases h
      exact .empty (List.getLast?_eq_none_iff.1 hlast)
    rename_i last hlast
    split at h
    · rename_i hne
      cases h
      refine .wrongEnd (fun hnil => ?_) (by simpa [hlast] using hne)
      simp [hnil] at hlast
    rename_i heq
    split at h
    · cases h
    rename_i hdup
    cases h
    exact .repeats (by rw [hlast, not_not.1 heq]) hdup
  · rintro (hnil | ⟨hne, hends⟩ | ⟨hends, hdup⟩)
    · rw [pathFault?, hnil]
      rfl
    · rw [List.getLast?_eq_some_getLast hne, ne_eq, Option.some.injEq] at hends
      rw [pathFault?, List.getLast?_eq_some_getLast hne]
      exact if_pos hends
    · rw [pathFault?, hends]
      simp [hdup]

theorem pathFault?_eq_none_iff : c.pathFault? = none ↔ c.InOrder := by
  rw [Option.eq_none_iff_forall_ne_some]
  simp only [ne_eq, pathFault?_eq_some_iff]
  constructor
  · intro h
    have hne : c.path ≠ [] := fun hnil => h _ (.empty hnil)
    have hends : c.path.getLast? = some c.id := not_not.1 fun hend => h _ (.wrongEnd hne hend)
    exact ⟨hne, hends, not_not.1 fun hdup => h _ (.repeats hends hdup)⟩
  · rintro ⟨hne, hends, hnodup⟩ fault (hnil | ⟨-, hend⟩ | ⟨-, hdup⟩)
    · exact hne hnil
    · exact hend hends
    · exact hdup hnodup

instance : DecidablePred InOrder :=
  fun c => decidable_of_iff (c.pathFault? = none) pathFault?_eq_none_iff

/-- The parent is the last but one that the path names. -/
theorem parentId?_eq_some_iff {parentId : ConsentId} :
    c.parentId? = some parentId ↔ ∃ above last, c.path = above ++ [parentId, last] := by
  rw [parentId?, List.getLast?_eq_some_iff]
  constructor
  · rintro ⟨above, h⟩
    have hne : c.path ≠ [] := by
      intro hnil
      simp [hnil] at h
    have hpath := List.dropLast_concat_getLast hne
    rw [h, List.append_assoc] at hpath
    exact ⟨above, c.path.getLast hne, hpath.symm⟩
  · rintro ⟨above, last, h⟩
    exact ⟨above, by simp [h]⟩

/-- A path with one identifier more begins alike. -/
theorem rootId?_eq_of_path {above : List ConsentId} {parentId last : ConsentId}
    (hc : c.path = above ++ [parentId, last]) (hp : p.path = above ++ [parentId]) :
    c.rootId? = p.rootId? := by
  rw [rootId?, rootId?, hc, hp]
  cases above <;> rfl

theorem InOrder.id_eq (h : c.InOrder) {root : ConsentId} (hpath : c.path = [root]) :
    c.id = root := by
  have hends := h.ends
  rw [hpath, List.getLast?_singleton, Option.some.injEq] at hends
  exact hends.symm

end Consent

open Consent

/-! ## Lists -/

/-- Each path is in order, the identifiers differ, and the parent of each consent is there with the
path that leads to it. -/
structure Coherent (consents : List Consent) : Prop where
  inOrder : ∀ c ∈ consents, c.InOrder
  nodup : (consents.map Consent.id).Nodup
  parent : ∀ c ∈ consents, ∀ above parentId last, c.path = above ++ [parentId, last] →
    ∃ p ∈ consents, p.id = parentId ∧ p.path = above ++ [parentId]

namespace Coherent

variable {consents : List Consent} {c d : Consent}

theorem eq_of_id (h : Coherent consents) (hc : c ∈ consents) (hd : d ∈ consents)
    (hid : c.id = d.id) : c = d :=
  List.inj_on_of_nodup_map h.nodup hc hd hid

/-- The path of a consent ends with the consent itself, so it tells which consent it is. -/
theorem eq_of_path (h : Coherent consents) (hc : c ∈ consents) (hd : d ∈ consents)
    (hpath : c.path = d.path) : c = d := by
  refine h.eq_of_id hc hd (Option.some.inj ?_)
  rw [← (h.inOrder c hc).ends, ← (h.inOrder d hd).ends, hpath]

/-- Each beginning of a path is the path of a consent in the list. -/
theorem exists_of_beginning (h : Coherent consents) (hc : c ∈ consents) {path : List ConsentId}
    (hbegin : path <+: c.path) (hne : path ≠ []) : ∃ p ∈ consents, p.path = path := by
  -- on what the path of the consent has more: the parent has one identifier less of it
  obtain ⟨rest, hrest⟩ := hbegin
  induction rest using List.reverseRecOn generalizing c with
  | nil => exact ⟨c, hc, by rw [← hrest, List.append_nil]⟩
  | append_singleton rest last ih =>
    have hbefore : path ++ rest ≠ [] := by simp [hne]
    obtain ⟨above, parentId, hsplit⟩ : ∃ above parentId, path ++ rest = above ++ [parentId] :=
      ⟨_, _, (List.dropLast_concat_getLast hbefore).symm⟩
    have hpath : c.path = above ++ [parentId, last] := by
      rw [← hrest, ← List.append_assoc, hsplit, List.append_assoc]
      rfl
    obtain ⟨p, hp, -, hparent⟩ := h.parent c hc above parentId last hpath
    exact ih hp (by rw [hparent, hsplit])

theorem exists_root (h : Coherent consents) (hc : c ∈ consents) {root : ConsentId}
    (hroot : c.rootId? = some root) : ∃ p ∈ consents, p.path = [root] := by
  obtain ⟨rest, hpath⟩ := List.head?_eq_some_iff.1 hroot
  exact h.exists_of_beginning hc ⟨rest, hpath.symm⟩ (List.cons_ne_nil _ _)

/-- The consents with one root are a coherent list. -/
theorem filter_root (h : Coherent consents) (root : ConsentId) :
    Coherent (consents.filter (·.rootId? == some root)) := by
  have hsub : (consents.filter (·.rootId? == some root)).Sublist consents := List.filter_sublist
  refine ⟨fun c hc => h.inOrder c (hsub.mem hc), h.nodup.sublist (hsub.map _), ?_⟩
  intro c hc above parentId last hpath
  obtain ⟨hmem, hroot⟩ := List.mem_filter.1 hc
  obtain ⟨p, hp, hid, hparent⟩ := h.parent c hmem above parentId last hpath
  refine ⟨p, List.mem_filter.2 ⟨hp, ?_⟩, hid, hparent⟩
  rwa [rootId?_eq_of_path hpath hparent] at hroot

/-- A consent belongs to the same tree as the one directly above it. -/
theorem rootId?_eq_of_parentId? (h : Coherent consents) (hc : c ∈ consents) (hd : d ∈ consents)
    (hparent : d.parentId? = some c.id) : d.rootId? = c.rootId? := by
  obtain ⟨above, last, hpath⟩ := parentId?_eq_some_iff.1 hparent
  obtain ⟨p, hp, hid, hparentPath⟩ := h.parent d hd above c.id last hpath
  rw [← h.eq_of_id hp hc hid]
  exact rootId?_eq_of_path hpath hparentPath

/-- The order of the list does not matter. -/
theorem perm {consents' : List Consent} (h : Coherent consents) (hperm : consents.Perm consents') :
    Coherent consents' := by
  refine ⟨fun c hc => h.inOrder c (hperm.mem_iff.2 hc), (hperm.map _).nodup_iff.1 h.nodup, ?_⟩
  intro c hc above parentId last hpath
  obtain ⟨p, hp, hid, hparent⟩ := h.parent c (hperm.mem_iff.2 hc) above parentId last hpath
  exact ⟨p, hperm.mem_iff.1 hp, hid, hparent⟩

/-- Two lists that have no identifier in common hang together if each of them does. -/
theorem append {more : List Consent} (h : Coherent consents) (hmore : Coherent more)
    (hdisjoint : ∀ c ∈ consents, ∀ d ∈ more, c.id ≠ d.id) : Coherent (consents ++ more) := by
  refine ⟨List.forall_mem_append.2 ⟨h.inOrder, hmore.inOrder⟩, ?_, ?_⟩
  · rw [List.map_append, List.nodup_append]
    refine ⟨h.nodup, hmore.nodup, ?_⟩
    simpa only [List.forall_mem_map] using hdisjoint
  · intro c hc above parentId last hpath
    rcases List.mem_append.1 hc with hc | hc
    · obtain ⟨p, hp, hparent⟩ := h.parent c hc above parentId last hpath
      exact ⟨p, List.mem_append_left _ hp, hparent⟩
    · obtain ⟨p, hp, hparent⟩ := hmore.parent c hc above parentId last hpath
      exact ⟨p, List.mem_append_right _ hp, hparent⟩

end Coherent

end ScopeGrant
