import ScopeGrant.Proofs.Consent.Walk
import ScopeGrant.Proofs.Consent.Matching
import ScopeGrant.Proofs.Scope.Containment
import ScopeGrant.Proofs.Scope.Reachable

/-!
# Trees of consents that are scopes

A tree of consents has the shape of a scope: a value at each consent, and below it those of its
children. If the values can be written, siblings carry different ones and no consent carries that of
one above it (`Expressible`), the scope of this shape is one that building accepts. The tree then
meets exactly what this scope satisfies. The matcher looks for a child that meets a dependency among
all children, and containment looks only at the dependency with the same value, but in such a tree
no other child could meet it (`Mirrors.meetsAt_iff`). That a value occurs in several branches does
not matter to either.
-/

namespace ScopeGrant

open Relation

namespace Scope

/-! ## Scopes made from their values -/

mutual

/-- Make the scope with the builder: each scope in it is made new from its value, takes in its
dependencies when these are made, and is given its marker. -/
def assemble : Scope → Except ScopeError Scope
  | mk v o ds => do
    let s ← new v
    let made ← assembleList ds
    return (← s.addDependencies made).withOptional o

/-- Make the scopes of a list, one after the other. -/
def assembleList : List Scope → Except ScopeError (List Scope)
  | [] => .ok []
  | d :: ds => do
    let made ← assemble d
    return made :: (← assembleList ds)

end

theorem assembleList_eq_ok {ds : List Scope} (h : ∀ d ∈ ds, assemble d = .ok d) :
    assembleList ds = .ok ds := by
  induction ds with
  | nil => rfl
  | cons d ds ih =>
    obtain ⟨hd, hrest⟩ := List.forall_mem_cons.1 h
    rw [assembleList, hd, ok_bind, ih hrest, ok_bind]
    rfl

/-- The builder makes every scope that is well formed. -/
theorem assemble_of_wellFormed {s : Scope} (h : s.WellFormed) : assemble s = .ok s := by
  induction s with
  | mk v o ds ih =>
    have hnew : new v = .ok (leaf v false) := new_eq_ok_iff.2 ⟨h.values _ .refl, rfl⟩
    have hbelow : assembleList ds = .ok ds :=
      assembleList_eq_ok fun d hd => ih d hd (h.of_mem hd)
    have hjoin : (leaf v false).addDependencies ds = .ok (mk v false ds) := by
      refine addDependencies_eq_ok_iff.2 ⟨fun d hd t ht => ?_, ?_⟩
      · exact h.acyclic _ .refl t (TransGen.head' hd ht)
      · show mk v false ds = mk v false (normalize ([] ++ ds))
        have hnodup : (ds.map value).Nodup := (tidy_iff.1 h.tidy).1
        rw [List.nil_append, normalize_of_nodup hnodup]
    rw [assemble, hnew, ok_bind, hbelow, ok_bind, hjoin, ok_bind]
    rfl

end Scope

/-- The consents of a tree can stand for the scopes of an expression: their values can be written,
those of siblings differ, and none is repeated along a path. -/
structure Expressible (consents : List Consent) : Prop where
  values : ∀ c ∈ consents, Scope.IsValue c.scopeValue
  siblings : ∀ c ∈ consents, ∀ d ∈ consents, c.parentId? = d.parentId? →
    c.scopeValue = d.scopeValue → c = d
  above : ∀ c ∈ consents, ∀ a ∈ consents, a.id ∈ c.path → a ≠ c → a.scopeValue ≠ c.scopeValue

namespace ConsentTree

/-! ## The scope of a tree -/

mutual

/-- The scope has the shape and the values of the tree from the consent down: it carries the value
of the consent, and its dependencies, in whatever order, are those of the children. -/
def Mirrors (t : ConsentTree) : Consent → Scope → Prop
  | c, .mk v _ ds => c.scopeValue = v ∧ ∃ ks : List Consent, ks.Perm (t.children c.id) ∧
      t.MirrorsList ks ds

/-- The scopes are those of the consents, one for each. -/
def MirrorsList (t : ConsentTree) : List Consent → List Scope → Prop
  | [], [] => True
  | k :: ks, d :: ds => t.Mirrors k d ∧ t.MirrorsList ks ds
  | _, _ => False

end

variable {rootId : ConsentId} {consents : List Consent} {t : ConsentTree} {c k : Consent}
  {g u : Scope}

theorem mirrorsList_iff {ks : List Consent} {ds : List Scope} :
    t.MirrorsList ks ds ↔ List.Forall₂ t.Mirrors ks ds := by
  induction ds generalizing ks with
  | nil => cases ks <;> simp [MirrorsList]
  | cons d ds ih => cases ks <;> simp [MirrorsList, ih]

theorem mirrors_iff :
    t.Mirrors c g ↔ c.scopeValue = g.value ∧ ∃ ks : List Consent, ks.Perm (t.children c.id) ∧
      List.Forall₂ t.Mirrors ks g.dependencies := by
  cases g with
  | mk v o ds =>
    rw [Mirrors]
    simp only [mirrorsList_iff, Scope.value_mk, Scope.dependencies_mk]

namespace Mirrors

theorem exists_dependency (h : t.Mirrors c g) (hk : k ∈ t.children c.id) :
    ∃ d ∈ g.dependencies, t.Mirrors k d := by
  obtain ⟨-, ks, hperm, hbelow⟩ := mirrors_iff.1 h
  exact exists_right_of_forall₂ hbelow (hperm.mem_iff.2 hk)

theorem exists_child (h : t.Mirrors c g) {d : Scope} (hd : d ∈ g.dependencies) :
    ∃ k ∈ t.children c.id, t.Mirrors k d := by
  obtain ⟨-, ks, hperm, hbelow⟩ := mirrors_iff.1 h
  obtain ⟨k, hk, hkd⟩ := exists_left_of_forall₂ hbelow hd
  exact ⟨k, hperm.mem_iff.1 hk, hkd⟩

/-- The values of the dependencies are those of the children. -/
theorem map_value_perm (h : t.Mirrors c g) :
    (g.dependencies.map Scope.value).Perm ((t.children c.id).map Consent.scopeValue) := by
  obtain ⟨-, ks, hperm, hbelow⟩ := mirrors_iff.1 h
  have hvalues : ks.map Consent.scopeValue = g.dependencies.map Scope.value := by
    rw [← List.forall₂_eq_eq_eq, List.forall₂_map_left_iff, List.forall₂_map_right_iff]
    exact hbelow.imp fun k d hkd => (mirrors_iff.1 hkd).1
  rw [← hvalues]
  exact hperm.map _

/-- Where siblings differ, a scope is met at a consent exactly if the scope that mirrors the tree
from there down satisfies it. -/
theorem meetsAt_iff (hbuilt : ofList rootId consents = .ok t) (h : t.Mirrors c g) (hg : g.Tidy)
    {required : Scope} : t.MeetsAt c required ↔ g.satisfies required = true := by
  induction required generalizing c g with
  | mk v o ds ih =>
    have hvalue : c.scopeValue = g.value := (mirrors_iff.1 h).1
    have hbelow : ∀ d ∈ ds, (∃ k, t.IsChild c k ∧ t.MeetsAt k d) ↔
        ∃ e, g.dependency? d.value = some e ∧ e.satisfies d = true := by
      intro d hd
      constructor
      · rintro ⟨k, hchild, hmet⟩
        rw [← (holds_of_ofList hbuilt).mem_children_iff] at hchild
        obtain ⟨e, he, hke⟩ := h.exists_dependency hchild
        have hsat := (ih d hd hke (hg.of_mem he)).1 hmet
        -- no other dependency has the value that is looked for
        have hfound := Scope.dependency?_of_mem hg he
        rw [(Scope.satisfies_iff.1 hsat).1] at hfound
        exact ⟨e, hfound, hsat⟩
      · rintro ⟨e, hfound, hsat⟩
        have he := (Scope.exists_of_dependency? hfound).1
        obtain ⟨k, hk, hke⟩ := h.exists_child he
        refine ⟨k, (holds_of_ofList hbuilt).mem_children_iff.1 hk, ?_⟩
        exact (ih d hd hke (hg.of_mem he)).2 hsat
    rw [ConsentTree.meetsAt_iff, Scope.satisfies_iff, hvalue]
    exact and_congr_right fun _ => forall₂_congr hbelow

/-- Each scope inside the mirror mirrors the tree from some consent down. -/
theorem exists_inside (hbuilt : ofList rootId consents = .ok t) (hc : c ∈ consents)
    (h : t.Mirrors c g) (hu : ReflTransGen Scope.Depends g u) :
    ∃ k ∈ consents, t.Mirrors k u ∧ c.path <+: k.path := by
  induction hu with
  | refl => exact ⟨c, hc, h, List.prefix_rfl⟩
  | tail _ hd ih =>
    obtain ⟨k, hk, hmirrors, hpath⟩ := ih
    obtain ⟨k', hk', hmirrors'⟩ := hmirrors.exists_child hd
    have hmem := (mem_children_iff hbuilt).1 hk'
    refine ⟨k', hmem.1, hmirrors', hpath.trans ?_⟩
    rw [(coherent_of_ofList hbuilt).path_eq_of_parentId? hk hmem.1 hmem.2]
    exact List.prefix_append ..

end Mirrors

/-- There is a scope that mirrors the tree. The induction is on how much deeper the tree leads. -/
theorem exists_mirrors (hbuilt : ofList rootId consents = .ok t) (hc : c ∈ consents) :
    ∃ g, t.Mirrors c g := by
  induction hn : t.maxDepth - c.path.length using Nat.strongRecOn generalizing c with
  | ind n ih =>
    subst hn
    have hbelow : ∀ k ∈ t.children c.id, ∃ d, t.Mirrors k d := by
      intro k hk
      have hmem := ((mem_children_iff hbuilt).1 hk).1
      have hlength := congrArg List.length (path_of_mem_children hbuilt hc hk)
      rw [List.length_append, List.length_singleton] at hlength
      have hdepth : k.path.length ≤ t.maxDepth := (isGreatest_maxDepth hbuilt).2 ⟨k, hmem, rfl⟩
      exact ih _ (by omega) hmem rfl
    obtain ⟨ds, hds⟩ := exists_forall₂ hbelow
    exact ⟨.mk c.scopeValue false ds, mirrors_iff.2 ⟨rfl, _, .refl _, hds⟩⟩

/-! ## The mirror is a scope -/

theorem nodup_children_scopeValue (hbuilt : ofList rootId consents = .ok t)
    (hexpressible : Expressible consents) (c : Consent) :
    ((t.children c.id).map Consent.scopeValue).Nodup := by
  have hnodup : (t.children c.id).Nodup :=
    (pairwise_children hbuilt c.id).imp fun hless heq => UInt64.ne_of_lt hless (congrArg _ heq)
  refine hnodup.map_on fun k hk k' hk' hvalue => ?_
  rw [mem_children_iff hbuilt] at hk hk'
  exact hexpressible.siblings k hk.1 k' hk'.1 (hk.2.trans hk'.2.symm) hvalue

/-- A consent is named in the path of any consent below it. -/
theorem ne_and_mem_path_of_below (hbuilt : ofList rootId consents = .ok t) {d : Consent}
    (hc : c ∈ consents) (hk : k ∈ t.children c.id) (hd : k.path <+: d.path) :
    c ≠ d ∧ c.id ∈ d.path := by
  have hbegin : c.path ++ [k.id] <+: d.path := path_of_mem_children hbuilt hc hk ▸ hd
  have hends := ((coherent_of_ofList hbuilt).inOrder c hc).ends
  constructor
  · rintro rfl
    have hlength := hbegin.length_le
    rw [List.length_append, List.length_singleton] at hlength
    omega
  · exact hbegin.subset (List.mem_append_left _ (List.mem_of_getLast? hends))

theorem Mirrors.wellFormed (hbuilt : ofList rootId consents = .ok t)
    (hexpressible : Expressible consents) (hc : c ∈ consents) (h : t.Mirrors c g) :
    g.WellFormed := by
  constructor
  · intro u hu
    obtain ⟨k, hk, hmirrors, -⟩ := h.exists_inside hbuilt hc hu
    rw [← (mirrors_iff.1 hmirrors).1]
    exact hexpressible.values k hk
  · intro u hu
    obtain ⟨k, hk, hmirrors, -⟩ := h.exists_inside hbuilt hc hu
    rw [hmirrors.map_value_perm.nodup_iff]
    exact nodup_children_scopeValue hbuilt hexpressible k
  · intro u hu w hw
    obtain ⟨k, hk, hmirrors, -⟩ := h.exists_inside hbuilt hc hu
    obtain ⟨d, hd, hdw⟩ := TransGen.head'_iff.1 hw
    obtain ⟨k', hk', hbelow⟩ := hmirrors.exists_child hd
    have hmem := ((mem_children_iff hbuilt).1 hk').1
    obtain ⟨k'', hk'', hmirrors', hpath⟩ := hbelow.exists_inside hbuilt hmem hdw
    obtain ⟨hne, habove⟩ := ne_and_mem_path_of_below hbuilt hk hk' hpath
    rw [← (mirrors_iff.1 hmirrors).1, ← (mirrors_iff.1 hmirrors').1]
    exact (hexpressible.above k'' hk'' k hk habove hne).symm

/-- A tree whose consents can stand for scopes has a mirror among the scopes. Each of its mirrors is
what the builder makes of the same values, and the tree meets exactly what the mirror satisfies. -/
theorem meets_iff_mirror_satisfies (rootId : ConsentId) (consents : List Consent) (t : ConsentTree)
    (h : ofList rootId consents = .ok t) (hexpressible : Expressible consents) :
    (∃ g, t.Mirrors t.root g) ∧
    ∀ g, t.Mirrors t.root g → g.assemble = .ok g ∧
      ∀ required : Scope, t.meets required = true ↔ g.satisfies required = true := by
  refine ⟨exists_mirrors h (root_mem h), fun g hg => ?_⟩
  have hwellFormed := hg.wellFormed h hexpressible (root_mem h)
  refine ⟨Scope.assemble_of_wellFormed hwellFormed, fun required => ?_⟩
  rw [(holds_of_ofList h).meets_iff, hg.meetsAt_iff h hwellFormed.tidy]

def leftChild : Consent :=
  { id := 2, client := "app", scopeValue := "b", path := [1, 2] }

def rightChild : Consent :=
  { id := 3, client := "web", scopeValue := "c", path := [1, 3] }

def belowLeft : Consent :=
  { id := 4, client := "app", scopeValue := "d", path := [1, 2, 4] }

def belowRight : Consent :=
  { id := 5, client := "app", scopeValue := "d", path := [1, 3, 5] }

def endRight : Consent :=
  { id := 6, client := "web", scopeValue := "e", path := [1, 3, 5, 6] }

/-- A tree with two branches, in which a value occurs twice. -/
def unevenBranches : List Consent :=
  [belowRight, { id := 1, client := "app", scopeValue := "a", path := [1] }, endRight, leftChild,
    rightChild, belowLeft]

/-- What mirrors the tree, the branch on the right first. -/
def unevenMirror : Scope :=
  .mk "a" false [.mk "c" true [.mk "d" false [.leaf "e" false]], .mk "b" false [.leaf "d" false]]

/-- The consents `belowLeft` and `belowRight` have the same value. Below the one on the right there
is one more consent, so the branches are not exchanged. -/
theorem meets_iff_mirror_satisfies_of_two_branches :
    ∃ t, ofList 1 unevenBranches = .ok t ∧
      Expressible unevenBranches ∧
      t.Mirrors t.root unevenMirror ∧
      t.meets (.mk "a" false [.mk "b" false [.leaf "d" true],
        .mk "c" false [.mk "d" false [.leaf "e" false]]]) = true ∧
      ¬ t.meets (.mk "a" false [.mk "b" false [.mk "d" false [.leaf "e" false]]]) = true := by
  have hview : (ofList 1 unevenBranches).map
      (fun t => (t.root.scopeValue, t.root.id, [1, 2, 3, 4, 5, 6].map t.children)) =
      .ok ("a", 1,
        [[leftChild, rightChild], [belowLeft], [belowRight], [], [endRight], []]) := by
    decide +kernel
  obtain ⟨t, ht, hview⟩ := map_eq_ok_iff.1 hview
  obtain ⟨hvalue, hview⟩ := Prod.mk.inj hview
  obtain ⟨hid, hchildren⟩ := Prod.mk.inj hview
  simp only [List.map_cons, List.map_nil, List.cons.injEq, and_true] at hchildren
  obtain ⟨h1, h2, h3, h4, h5, h6⟩ := hchildren
  have hexpressible : Expressible unevenBranches := ⟨by decide, by decide, by decide⟩
  have hmirror : t.Mirrors t.root unevenMirror := by
    refine ⟨hvalue, [rightChild, leftChild], ?_, ?_⟩
    · rw [hid, h1]
      exact List.Perm.swap ..
    · simp [MirrorsList, Mirrors, Scope.leaf, leftChild, rightChild, belowLeft, belowRight,
        endRight, h2, h3, h4, h5, h6]
  obtain ⟨-, hmirrors⟩ := meets_iff_mirror_satisfies _ _ t ht hexpressible
  obtain ⟨-, hmeets⟩ := hmirrors _ hmirror
  refine ⟨t, ht, hexpressible, hmirror, (hmeets _).2 (by decide +kernel), fun hmet => ?_⟩
  have hsat := (hmeets _).1 hmet
  revert hsat
  decide +kernel

end ConsentTree

end ScopeGrant
