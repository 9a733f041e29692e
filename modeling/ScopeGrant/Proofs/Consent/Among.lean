import ScopeGrant.Proofs.Consent.Forest
import ScopeGrant.Proofs.Consent.Matching

/-!
# What a list of consents grants

Whether a forest meets a scope is told by its list of consents alone: some consent without a parent
meets it, where a consent meets a scope if it carries the value and, for each dependency, a consent
directly below it meets this one (`MeetsAmong`). No tree needs to be built to say so, since a
consent that names another one as its parent belongs to the same tree.

More consents below and beside those of a list only add to what is met there. So no requirement
that is met is lost when consents are added (`meetsAll_of_subset`).
-/

namespace ScopeGrant

/-- The consent carries the value of the scope, and for each dependency of the scope there is, among
the consents of the list, one directly below it at which this one is met. -/
def Consent.MeetsAmong (consents : List Consent) : Consent → Scope → Prop
  | c, .mk v _ ds =>
    c.scopeValue = v ∧
      ∀ d ∈ ds, ∃ k ∈ consents, k.parentId? = some c.id ∧ k.MeetsAmong consents d

open Consent

section Among

variable {consents more : List Consent} {c : Consent} {s : Scope}

theorem meetsAmong_iff :
    c.MeetsAmong consents s ↔
      c.scopeValue = s.value ∧
        ∀ d ∈ s.dependencies, ∃ k ∈ consents, k.parentId? = some c.id ∧ k.MeetsAmong consents d := by
  cases s with
  | mk v o ds => rw [MeetsAmong]; rfl

theorem Consent.MeetsAmong.mono (h : c.MeetsAmong consents s) (hsub : consents ⊆ more) :
    c.MeetsAmong more s := by
  induction s generalizing c with
  | mk v o ds ih =>
    obtain ⟨hvalue, hbelow⟩ := meetsAmong_iff.1 h
    refine meetsAmong_iff.2 ⟨hvalue, fun d hd => ?_⟩
    obtain ⟨k, hk, hparent, hmet⟩ := hbelow d hd
    exact ⟨k, hsub hk, hparent, ih d hd hmet⟩

end Among

namespace ConsentForest

section Built

variable {consents : List Consent} {f : ConsentForest} {t : ConsentTree} {c k : Consent} {s : Scope}

/-- In its tree the children of a consent are all that name it as their parent. -/
theorem isChild_iff (h : ofList consents = .ok f) (ht : t ∈ f.trees) (hc : c ∈ consents)
    (hroot : c.rootId? = some t.rootId) :
    t.IsChild c k ↔ k ∈ consents ∧ k.parentId? = some c.id := by
  rw [ConsentTree.IsChild, get?_eq_some_iff_of_mem_trees h ht, and_iff_left rfl, and_right_comm,
    and_iff_left_iff_imp]
  rintro ⟨hk, hparent⟩
  rw [(coherent_of_ofList h).rootId?_eq_of_parentId? hc hk hparent, hroot]

theorem meetsAt_iff_meetsAmong (h : ofList consents = .ok f) (ht : t ∈ f.trees) (hc : c ∈ consents)
    (hroot : c.rootId? = some t.rootId) : t.MeetsAt c s ↔ c.MeetsAmong consents s := by
  induction s generalizing c with
  | mk v o ds ih =>
    rw [ConsentTree.meetsAt_iff, meetsAmong_iff]
    refine and_congr_right fun _ => forall₂_congr fun d hd => exists_congr fun k => ?_
    rw [isChild_iff h ht hc hroot, and_assoc]
    refine and_congr_right fun hk => and_congr_right fun hparent => ih d hd hk ?_
    rw [(coherent_of_ofList h).rootId?_eq_of_parentId? hc hk hparent, hroot]

/-- A forest meets a scope exactly if a consent without a parent does, among those of the list. -/
theorem meets_iff_meetsAmong (h : ofList consents = .ok f) :
    f.meets s = true ↔ ∃ c ∈ consents, c.isRoot = true ∧ c.MeetsAmong consents s := by
  have hroots : ∀ c, c ∈ consents ∧ c.isRoot = true ↔ ∃ t ∈ f.trees, t.root = c := by
    intro c
    rw [← List.mem_filter, ← (map_root_perm h).mem_iff, List.mem_map]
  have hat : ∀ t ∈ f.trees, t.MeetsAt t.root s ↔ t.root.MeetsAmong consents s := by
    intro t ht
    obtain ⟨hmem, hpath⟩ := root_path h ht
    exact meetsAt_iff_meetsAmong h ht hmem (by rw [rootId?, hpath, List.head?_cons])
  rw [meets_iff h]
  constructor
  · rintro ⟨t, ht, hmet⟩
    obtain ⟨hmem, hroot⟩ := (hroots t.root).2 ⟨t, ht, rfl⟩
    exact ⟨t.root, hmem, hroot, (hat t ht).1 hmet⟩
  · rintro ⟨c, hc, hroot, hmet⟩
    obtain ⟨t, ht, rfl⟩ := (hroots c).1 ⟨hc, hroot⟩
    exact ⟨t, ht, (hat t ht).2 hmet⟩

end Built

/-- Whoever is granted more keeps all that was granted before: where a list holds all consents of
another one, its forest meets all scopes that the other forest meets. -/
theorem meetsAll_of_subset (consents more : List Consent) (hsub : ∀ c ∈ consents, c ∈ more)
    (f g : ConsentForest) (hf : ofList consents = .ok f) (hg : ofList more = .ok g)
    (required : List Scope) (hmet : f.meetsAll required = true) : g.meetsAll required = true := by
  rw [meetsAll, List.all_eq_true] at hmet ⊢
  intro r hr
  obtain ⟨c, hc, hroot, hmeets⟩ := (meets_iff_meetsAmong hf).1 (hmet r hr)
  exact (meets_iff_meetsAmong hg).2 ⟨c, hsub c hc, hroot, hmeets.mono hsub⟩

def oneChild : List Consent :=
  [{ id := 1, client := "app", scopeValue := "a", path := [1] },
    { id := 3, client := "app", scopeValue := "b", path := [1, 3] },
    { id := 4, client := "app", scopeValue := "c", path := [1, 3, 4] }]

/-- The same consents, and another child of the root with the value of the first. -/
def twoChildren : List Consent :=
  { id := 2, client := "web", scopeValue := "b", path := [1, 2] } :: oneChild.reverse

def requiredOfOne : List Scope :=
  [.mk "a" false [.mk "b" false [.leaf "c" false]], .leaf "a" false]

/-- A tree grows by a child that comes first and has the same value as the one that counts. -/
theorem meetsAll_of_subset_of_second_child :
    (∀ c ∈ oneChild, c ∈ twoChildren) ∧
    ∃ f g, ofList oneChild = .ok f ∧ ofList twoChildren = .ok g ∧
      f.meetsAll requiredOfOne = true ∧ g.meetsAll requiredOfOne = true := by
  have hmet : (ofList oneChild).map (·.meetsAll requiredOfOne) = .ok true := by decide +kernel
  have hmore : (ofList twoChildren).map (·.size) = .ok 1 := by decide +kernel
  obtain ⟨f, hf, hmet⟩ := map_eq_ok_iff.1 hmet
  obtain ⟨g, hg, -⟩ := map_eq_ok_iff.1 hmore
  refine ⟨by decide, f, g, hf, hg, hmet, ?_⟩
  exact meetsAll_of_subset _ _ (by decide) f g hf hg _ hmet

end ConsentForest

end ScopeGrant
