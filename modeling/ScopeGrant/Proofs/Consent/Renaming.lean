import ScopeGrant.Proofs.Consent.Among
import ScopeGrant.Proofs.Scope.Covering

/-!
# Identifiers are but names

What is decided depends on which consents lie below which, and on the values of their scopes.
Identifiers are compared with each other and never looked at otherwise, so they may be exchanged for
others (`Consent.Renamed`), and nothing else that a consent says is looked at: whom it is granted
to, for whom, how and when. Exchanging identifiers puts the trees and the children of a consent in
another order. But a list is still refused or not (`ofList_eq_error_iff_of_renamed`), and what is
met among its consents is still met (`Renamed.meetsAmong_iff`). Nor do optional markers count in
what is required.
-/

namespace ScopeGrant

/-! ## Renamed consents -/

/-- The fault with other identifiers. -/
def PathFault.rename (φ : ConsentId → ConsentId) : PathFault → PathFault
  | empty => empty
  | wrongEnd => wrongEnd
  | repeats => repeats
  | wrongRoot root => wrongRoot (φ root)
  | notExtending parent => notExtending (φ parent)

/-- The error with other identifiers: it is of the same kind and about the renamed consents. -/
def ForestError.rename (φ : ConsentId → ConsentId) : ForestError → ForestError
  | missingParent consent parent => missingParent (φ consent) (φ parent)
  | invalidPath consent fault => invalidPath (φ consent) (fault.rename φ)
  | duplicate consent => duplicate (φ consent)

/-- The consent `d` has the renamed identifiers of `c` and covers the same scope value. All else may
differ. -/
structure Consent.Renamed (φ : ConsentId → ConsentId) (c d : Consent) : Prop where
  id : d.id = φ c.id
  path : d.path = c.path.map φ
  scopeValue : d.scopeValue = c.scopeValue

open Consent

section Renaming

variable {φ : ConsentId → ConsentId} {consents renamed : List Consent} {c d k k' : Consent}

namespace Consent.Renamed

theorem isRoot_eq (h : Renamed φ c d) : d.isRoot = c.isRoot := by
  rw [isRoot, isRoot, h.path, List.length_map]

theorem parentId?_eq (h : Renamed φ c d) : d.parentId? = c.parentId?.map φ := by
  rw [parentId?, parentId?, h.path, ← List.map_dropLast, List.getLast?_map]

/-- A renamed path with a parent comes from a path with a parent. -/
theorem exists_path (h : Renamed φ c d) {above : List ConsentId} {parentId last : ConsentId}
    (hpath : d.path = above ++ [parentId, last]) :
    ∃ above' parentId' last', c.path = above' ++ [parentId', last'] ∧ above'.map φ = above ∧
      φ parentId' = parentId := by
  rw [h.path, List.map_eq_append_iff] at hpath
  obtain ⟨above', rest, hc, habove, hrest⟩ := hpath
  obtain ⟨parentId', lasts, rfl, hparent, hlasts⟩ := List.map_eq_cons_iff.1 hrest
  obtain ⟨last', rfl, -⟩ := List.map_eq_singleton_iff.1 hlasts
  exact ⟨above', parentId', last', hc, habove, hparent⟩

variable (hφ : Function.Injective φ)

include hφ

theorem parentId?_eq_some_iff (h : Renamed φ c d) (hk : Renamed φ k k') :
    k'.parentId? = some d.id ↔ k.parentId? = some c.id := by
  rw [hk.parentId?_eq, h.id, ← Option.map_some, (Option.map_injective hφ).eq_iff]

theorem pathFault?_eq (h : Renamed φ c d) : d.pathFault? = c.pathFault? := by
  unfold pathFault?
  simp only [h.path, h.id, List.getLast?_map, List.nodup_map_iff hφ]
  cases c.path.getLast? with
  | none => rfl
  | some last => simp only [Option.map_some, ne_eq, hφ.eq_iff]

theorem hasFault_iff (h : Renamed φ c d) {fault : PathFault} :
    d.HasFault fault ↔ c.HasFault fault := by
  rw [← pathFault?_eq_some_iff, ← pathFault?_eq_some_iff, h.pathFault?_eq hφ]

theorem inOrder_iff (h : Renamed φ c d) : d.InOrder ↔ c.InOrder := by
  rw [← pathFault?_eq_none_iff, ← pathFault?_eq_none_iff, h.pathFault?_eq hφ]

end Consent.Renamed

/-! ## Renamed faults -/

/-- The faults of a single path name no identifier. -/
theorem Consent.HasFault.rename_eq {fault : PathFault} (h : c.HasFault fault) :
    fault.rename φ = fault := by
  cases h <;> rfl

namespace Consent.Renamed

variable (hφ : Function.Injective φ) {e : ForestError}

include hφ

theorem entryFault_iff {before before' : List Consent}
    (hbefore : List.Forall₂ (Renamed φ) before before') (h : Renamed φ c d) :
    EntryFault before' d e ↔ ∃ e', EntryFault before c e' ∧ e = e'.rename φ := by
  constructor
  · rintro (hfault | ⟨hd, hb, hid⟩)
    · refine ⟨_, .path ((h.hasFault_iff hφ).1 hfault), ?_⟩
      rw [ForestError.rename, h.id, hfault.rename_eq]
    · obtain ⟨b, hmem, hb⟩ := exists_left_of_forall₂ hbefore hb
      refine ⟨_, .duplicate ((h.inOrder_iff hφ).1 hd) hmem (hφ ?_), ?_⟩
      · rw [← hb.id, hid, h.id]
      · rw [ForestError.rename, h.id]
  · rintro ⟨e', hfault | ⟨hc, hb, hid⟩, rfl⟩
    · rw [ForestError.rename, hfault.rename_eq, ← h.id]
      exact .path ((h.hasFault_iff hφ).2 hfault)
    · obtain ⟨b, hmem, hb⟩ := exists_right_of_forall₂ hbefore hb
      rw [ForestError.rename, ← h.id]
      exact .duplicate ((h.inOrder_iff hφ).2 hc) hmem (by rw [hb.id, hid, h.id])

theorem parentFault_iff (hconsents : List.Forall₂ (Renamed φ) consents renamed)
    (h : Renamed φ c d) :
    ParentFault renamed d e ↔ ∃ e', ParentFault consents c e' ∧ e = e'.rename φ := by
  constructor
  · rintro (⟨hpath, hmissing⟩ | ⟨hpath, hp, hid, hne⟩)
    · obtain ⟨above, parentId, last, hc, rfl, rfl⟩ := h.exists_path hpath
      refine ⟨_, .missing hc fun p hp hid => ?_, by rw [ForestError.rename, h.id]⟩
      obtain ⟨p', hmem, hp'⟩ := exists_right_of_forall₂ hconsents hp
      exact hmissing p' hmem (by rw [hp'.id, hid])
    · obtain ⟨above, parentId, last, hc, rfl, rfl⟩ := h.exists_path hpath
      obtain ⟨p, hmem, hp⟩ := exists_left_of_forall₂ hconsents hp
      rw [hp.id] at hid
      refine ⟨_, .notExtending hc hmem (hφ hid) fun hsame => hne ?_, ?_⟩
      · rw [hp.path, hsame, List.map_append, List.map_singleton]
      · rw [ForestError.rename, PathFault.rename, h.id]
  · rintro ⟨e', ⟨hpath, hmissing⟩ | ⟨hpath, hp, hid, hne⟩, rfl⟩
    · rw [ForestError.rename, ← h.id]
      refine .missing (h.path.trans (by rw [hpath, List.map_append]; rfl)) fun p' hp' hid => ?_
      obtain ⟨p, hmem, hp⟩ := exists_left_of_forall₂ hconsents hp'
      exact hmissing p hmem (hφ (by rw [← hp.id, hid]))
    · obtain ⟨p', hmem, hp'⟩ := exists_right_of_forall₂ hconsents hp
      rw [ForestError.rename, PathFault.rename, ← h.id]
      refine .notExtending (h.path.trans (by rw [hpath, List.map_append]; rfl)) hmem
        (by rw [hp'.id, hid]) fun hsame => hne ?_
      rw [hp'.path, ← List.map_singleton, ← List.map_append] at hsame
      exact List.map_injective_iff.2 hφ hsame

/-! ## Renamed decisions -/

theorem meetsAmong_iff (hconsents : List.Forall₂ (Renamed φ) consents renamed)
    (h : Renamed φ c d) {s : Scope} : d.MeetsAmong renamed s ↔ c.MeetsAmong consents s := by
  induction s generalizing c d with
  | mk v o ds ih =>
    rw [ScopeGrant.meetsAmong_iff, ScopeGrant.meetsAmong_iff, h.scopeValue]
    refine and_congr_right fun _ => forall₂_congr fun s hs => ?_
    constructor
    · rintro ⟨k', hk', hparent, hmet⟩
      obtain ⟨k, hmem, hk⟩ := exists_left_of_forall₂ hconsents hk'
      exact ⟨k, hmem, (h.parentId?_eq_some_iff hφ hk).1 hparent, (ih s hs hk).1 hmet⟩
    · rintro ⟨k, hk, hparent, hmet⟩
      obtain ⟨k', hmem, hk'⟩ := exists_right_of_forall₂ hconsents hk
      exact ⟨k', hmem, (h.parentId?_eq_some_iff hφ hk').2 hparent, (ih s hs hk').2 hmet⟩

end Consent.Renamed

/-- Optional markers play no part. -/
theorem meetsAmong_unmarked {s : Scope} :
    c.MeetsAmong consents s.unmarked ↔ c.MeetsAmong consents s := by
  induction s generalizing c with
  | mk v o ds ih =>
    rw [meetsAmong_iff, meetsAmong_iff, Scope.value_unmarked, Scope.dependencies_unmarked,
      List.forall_mem_map]
    refine and_congr_right fun _ => forall₂_congr fun d hd => ?_
    simp only [ih d hd]

namespace ConsentForest

variable {f g : ConsentForest} {s : Scope}

theorem meets_unmarked (h : ofList consents = .ok f) : f.meets s.unmarked = f.meets s := by
  rw [Bool.eq_iff_iff, meets_iff_meetsAmong h, meets_iff_meetsAmong h]
  simp only [meetsAmong_unmarked]

theorem meetsAll_map_unmarked (h : ofList consents = .ok f) (required : List Scope) :
    f.meetsAll (required.map Scope.unmarked) = f.meetsAll required := by
  rw [meetsAll, meetsAll, List.all_map]
  exact congrArg required.all (funext fun s => meets_unmarked h)

variable (hφ : Function.Injective φ) (hconsents : List.Forall₂ (Renamed φ) consents renamed)

include hφ hconsents

/-- A renamed list is refused exactly if the list is, with the renamed error. -/
theorem ofList_eq_error_iff_of_renamed {e : ForestError} :
    ofList renamed = .error e ↔ ∃ e', ofList consents = .error e' ∧ e = e'.rename φ := by
  have hentry := firstFault_iff_of_forall₂
    (fun _ _ _ _ hbefore hc _ => hc.entryFault_iff hφ hbefore) hconsents
  have hparent : ∀ e, FirstFault (fun _ => ParentFault renamed) renamed e ↔
      ∃ e', FirstFault (fun _ => ParentFault consents) consents e' ∧ e = e'.rename φ :=
    firstFault_iff_of_forall₂ (fun _ _ _ _ _ hc _ => hc.parentFault_iff hφ hconsents) hconsents
  simp only [ofList_eq_error_iff, hentry, faultless_iff_of_firstFault_iff hentry, hparent,
    or_and_right, exists_or, and_assoc, exists_and_left]

theorem exists_ofList_iff_of_renamed :
    (∃ f, ofList consents = .ok f) ↔ ∃ g, ofList renamed = .ok g := by
  rw [exists_eq_ok_iff, exists_eq_ok_iff]
  constructor
  · intro h e he
    obtain ⟨e', he', -⟩ := (ofList_eq_error_iff_of_renamed hφ hconsents).1 he
    exact h e' he'
  · intro h e he
    exact h _ ((ofList_eq_error_iff_of_renamed hφ hconsents).2 ⟨e, he, rfl⟩)

theorem meets_eq_of_renamed (hf : ofList consents = .ok f) (hg : ofList renamed = .ok g) :
    f.meets s = g.meets s := by
  rw [Bool.eq_iff_iff, meets_iff_meetsAmong hf, meets_iff_meetsAmong hg]
  constructor
  · rintro ⟨c, hc, hroot, hmet⟩
    obtain ⟨d, hd, h⟩ := exists_right_of_forall₂ hconsents hc
    exact ⟨d, hd, h.isRoot_eq.trans hroot, (h.meetsAmong_iff hφ hconsents).2 hmet⟩
  · rintro ⟨d, hd, hroot, hmet⟩
    obtain ⟨c, hc, h⟩ := exists_left_of_forall₂ hconsents hd
    exact ⟨c, hc, h.isRoot_eq.symm.trans hroot, (h.meetsAmong_iff hφ hconsents).1 hmet⟩

end ConsentForest

end Renaming

namespace ConsentForest

/-- If the identifiers of a list of consents are exchanged for others and all but their scope values
is changed in any way, a forest is built as before, or the error is the same but for the identifiers
in it. The forest answers as before, also where the optional markers of what is required are
changed. -/
theorem decision_eq_of_renamed (φ : ConsentId → ConsentId) (hφ : Function.Injective φ)
    (consents renamed : List Consent) (hconsents : List.Forall₂ (Renamed φ) consents renamed)
    (required marked : List Scope)
    (hmarked : marked.map Scope.unmarked = required.map Scope.unmarked) :
    ((∃ f, ofList consents = .ok f) ↔ ∃ g, ofList renamed = .ok g) ∧
    (∀ e, ofList consents = .error e → ofList renamed = .error (e.rename φ)) ∧
    ∀ f g, ofList consents = .ok f → ofList renamed = .ok g →
      f.meetsAll required = g.meetsAll marked := by
  refine ⟨exists_ofList_iff_of_renamed hφ hconsents, fun e he => ?_, fun f g hf hg => ?_⟩
  · exact (ofList_eq_error_iff_of_renamed hφ hconsents).2 ⟨e, he, rfl⟩
  · have hmeets : f.meets = g.meets := funext fun s => meets_eq_of_renamed hφ hconsents hf hg
    rw [← meetsAll_map_unmarked hg, hmarked, meetsAll_map_unmarked hg, meetsAll, meetsAll, hmeets]

def originalChild : Consent :=
  { id := 2, client := "app", scopeValue := "b", path := [1, 2] }

def original : List Consent :=
  [{ id := 1, client := "app", scopeValue := "a", path := [1] }, originalChild,
    { id := 3, client := "app", scopeValue := "c", path := [1, 3] }]

def oppositeChild : Consent :=
  { id := 7, client := "web", scopeValue := "b", path := [8, 7] }

/-- The consents under identifiers in the opposite order, with other clients and marks. -/
def opposite : List Consent :=
  [{ id := 8, client := "app", scopeValue := "a", path := [8], autoApproved := true }, oppositeChild,
    { id := 6, client := "web", scopeValue := "c", path := [8, 6], status := "used" }]

/-- A scope that both children grant together. -/
def throughChildren : Scope :=
  .mk "a" false [.leaf "b" false, .leaf "c" false]

def throughMarked : Scope :=
  .mk "a" false [.leaf "b" true, .leaf "c" false]

/-- Identifiers in the opposite order, so that the children change places. Without the root both lists
are refused for the lack of it. -/
theorem decision_eq_of_renamed_of_opposite :
    Function.Injective (fun id : ConsentId => 9 - id) ∧
    List.Forall₂ (Renamed fun id => 9 - id) original opposite ∧
    (∃ f g, ofList original = .ok f ∧ ofList opposite = .ok g ∧
      f.meetsAll [throughChildren] = true ∧ g.meetsAll [throughMarked] = true) ∧
    ofList [originalChild] = .error (.missingParent 2 1) ∧
    ofList [oppositeChild] = .error (.missingParent 7 8) := by
  have hinj : Function.Injective fun id : ConsentId => 9 - id :=
    fun _ _ h => (UInt64.sub_right_inj 9).1 h
  have hchild : Renamed (fun id => 9 - id) originalChild oppositeChild := ⟨rfl, rfl, rfl⟩
  have hrenamed : List.Forall₂ (Renamed fun id => 9 - id) original opposite :=
    .cons ⟨rfl, rfl, rfl⟩ (.cons hchild (.cons ⟨rfl, rfl, rfl⟩ .nil))
  have hmarked : [throughMarked].map Scope.unmarked = [throughChildren].map Scope.unmarked := by
    simp [throughMarked, throughChildren, Scope.unmarked, Scope.leaf]
  have hmeets : (ofList original).map (·.meetsAll [throughChildren]) = .ok true := by
    decide +kernel
  have hfails : ofList [originalChild] = .error (.missingParent 2 1) := rfl
  obtain ⟨f, hf, hmet⟩ := map_eq_ok_iff.1 hmeets
  obtain ⟨hbuilt, -, hanswers⟩ := decision_eq_of_renamed _ hinj _ _ hrenamed _ _ hmarked
  obtain ⟨g, hg⟩ := hbuilt.1 ⟨f, hf⟩
  refine ⟨hinj, hrenamed, ⟨f, g, hf, hg, hmet, (hanswers f g hf hg).symm.trans hmet⟩, hfails, ?_⟩
  exact (decision_eq_of_renamed _ hinj _ _ (.cons hchild .nil) [] [] rfl).2.1 _ hfails

end ConsentForest

end ScopeGrant
