import ScopeGrant.Proofs.Consent.Entailment
import ScopeGrant.Proofs.Scope.Acceptance

/-!
# Several requirements in one pair of brackets

Dependencies that differ in their values are met independently of each other. Terms with one value
are merged when they are read, so a single child must meet all of them, while on their own they
could be met by several children with this value. A tree that meets `v[t₁ … tₙ]` meets each `v[tᵢ]`,
and it is enough that it meets, for each value, the terms with this value together
(`meetsAt_collapse_iff_forall_value`). In a tree whose siblings differ in their values it is enough
that it meets each of the terms, since what is met there depends on the chains alone.
-/

namespace ScopeGrant

open Scope

namespace ConsentTree

variable {t : ConsentTree} {c : Consent} {s : Scope} {v : String} {o : Bool} {ds es : List Scope}

/-! ## Merged dependencies -/

theorem meetsAt_collapse_iff :
    t.MeetsAt c (Scope.mk v o ds).collapse ↔
      c.scopeValue = v ∧ ∀ d ∈ normalize (ds.map collapse), ∃ k, t.IsChild c k ∧ t.MeetsAt k d := by
  rw [collapse_mk, meetsAt_iff, value_mk, dependencies_mk]

/-- A scope with fewer terms in its brackets is met as well. -/
theorem MeetsAt.of_subset (h : t.MeetsAt c (Scope.mk v o ds).collapse) (hsub : es ⊆ ds) :
    t.MeetsAt c (Scope.mk v o es).collapse := by
  refine h.of_satisfies ((satisfies_iff_chain (tidy_collapse _)).2 fun p hp => ?_)
  rw [chain_collapse] at hp ⊢
  cases p with
  | nil => exact chain_nil _
  | cons w p =>
    obtain ⟨hw, hp⟩ := chain_singleton.1 hp
    exact chain_singleton.2 ⟨hw, hp.mono hsub⟩

theorem MeetsAt.of_term {d : Scope} (h : t.MeetsAt c (Scope.mk v o ds).collapse) (hd : d ∈ ds) :
    t.MeetsAt c (Scope.mk v o [d]).collapse :=
  h.of_subset (by simpa using hd)

theorem map_collapse_filter (ds : List Scope) (w : String) :
    (ds.filter (·.value == w)).map collapse = (ds.map collapse).filter (·.value == w) := by
  have hvalue : ((·.value == w) ∘ collapse) = fun d : Scope => d.value == w :=
    funext fun d => by rw [Function.comp_apply, collapse, value_regroup]
  rw [List.filter_map, hvalue]

/-- Terms with different values are met independently of each other. -/
theorem meetsAt_collapse_iff_forall_value (hne : ds ≠ []) :
    t.MeetsAt c (Scope.mk v o ds).collapse ↔
      ∀ d ∈ ds, t.MeetsAt c (Scope.mk v o (ds.filter (·.value == d.value))).collapse := by
  constructor
  · exact fun h d _ => h.of_subset (List.filter_subset_self _)
  · intro h
    obtain ⟨first, hfirst⟩ := List.exists_mem_of_ne_nil _ hne
    refine meetsAt_collapse_iff.2 ⟨(meetsAt_collapse_iff.1 (h first hfirst)).1, fun e he => ?_⟩
    -- the value of what is left after merging is that of one of the terms
    have hchain : Chain ds [e.value] := by
      rw [← chain_map_regroup chain_normalize ds, ← chain_normalize]
      exact chain_cons.2 ⟨e, he, rfl, chain_nil _⟩
    obtain ⟨d, hd, hvalue, -⟩ := chain_cons.1 hchain
    refine (meetsAt_collapse_iff.1 (h d hd)).2 e ?_
    rw [map_collapse_filter, ← filter_normalize]
    exact List.mem_filter.2 ⟨he, by rw [hvalue, beq_self_eq_true]⟩

theorem meetsAt_collapse_iff_of_nodup (hnodup : (ds.map value).Nodup) :
    t.MeetsAt c (Scope.mk v o ds).collapse ↔
      c.scopeValue = v ∧ ∀ d ∈ ds, ∃ k, t.IsChild c k ∧ t.MeetsAt k d.collapse := by
  have hvalues : (ds.map collapse).map value = ds.map value := by
    rw [List.map_map]
    exact List.map_congr_left fun d _ => value_regroup _ d
  rw [meetsAt_collapse_iff, normalize_of_nodup (hvalues ▸ hnodup), List.forall_mem_map]

theorem meetsAt_collapse_iff_forall_of_nodup (hne : ds ≠ []) (hnodup : (ds.map value).Nodup) :
    t.MeetsAt c (Scope.mk v o ds).collapse ↔ ∀ d ∈ ds, t.MeetsAt c (Scope.mk v o [d]).collapse := by
  refine ⟨fun h d hd => h.of_term hd, fun h => (meetsAt_collapse_iff_of_nodup hnodup).2 ?_⟩
  have hterm : ∀ d ∈ ds, c.scopeValue = v ∧ ∃ k, t.IsChild c k ∧ t.MeetsAt k d.collapse := by
    intro d hd
    have hone : ([d].map value).Nodup := List.nodup_singleton d.value
    obtain ⟨hvalue, hbelow⟩ := (meetsAt_collapse_iff_of_nodup hone).1 (h d hd)
    exact ⟨hvalue, hbelow d (List.mem_singleton_self d)⟩
  obtain ⟨first, hfirst⟩ := List.exists_mem_of_ne_nil _ hne
  exact ⟨(hterm first hfirst).1, fun d hd => (hterm d hd).2⟩

/-! ## Trees whose siblings differ -/

/-- No two children of a consent carry the same value. -/
def DistinctSiblings (t : ConsentTree) : Prop :=
  ∀ c k k', t.IsChild c k → t.IsChild c k' → k.scopeValue = k'.scopeValue → k = k'

/-- The values lead down from the consent, from child to child. -/
def Below (t : ConsentTree) : Consent → List String → Prop
  | _, [] => True
  | c, v :: p => ∃ k, t.IsChild c k ∧ k.scopeValue = v ∧ t.Below k p

theorem MeetsAt.below {p : List String} (h : t.MeetsAt c s) (hp : Chain s.dependencies p) :
    t.Below c p := by
  induction p generalizing c s with
  | nil => trivial
  | cons v p ih =>
    obtain ⟨d, hd, rfl, hrest⟩ := chain_cons.1 hp
    obtain ⟨k, hchild, hk⟩ := (meetsAt_iff.1 h).2 d hd
    exact ⟨k, hchild, (meetsAt_iff.1 hk).1, ih hk hrest⟩

/-- Where siblings differ, a scope is met if all its chains lead down. -/
theorem meetsAt_iff_below (hdistinct : t.DistinctSiblings) :
    t.MeetsAt c s ↔ c.scopeValue = s.value ∧ ∀ p, Chain s.dependencies p → t.Below c p := by
  refine ⟨fun h => ⟨(meetsAt_iff.1 h).1, fun p hp => h.below hp⟩, ?_⟩
  induction s generalizing c with
  | mk v o ds ih =>
    rintro ⟨hvalue, hbelow⟩
    refine meetsAt_iff.2 ⟨hvalue, fun d hd => ?_⟩
    obtain ⟨k, hchild, hk, -⟩ := hbelow [d.value] ((chain_nil _).up.of_mem hd)
    refine ⟨k, hchild, ih d hd ⟨hk, fun p hp => ?_⟩⟩
    -- the child that a longer chain leads through is the same one
    obtain ⟨k', hchild', hk', hp'⟩ := hbelow (d.value :: p) (hp.up.of_mem hd)
    rwa [hdistinct c k k' hchild hchild' (hk.trans hk'.symm)]

theorem meetsAt_collapse_iff_below (hdistinct : t.DistinctSiblings) :
    t.MeetsAt c (Scope.mk v o ds).collapse ↔ c.scopeValue = v ∧ ∀ p, Chain ds p → t.Below c p := by
  rw [meetsAt_iff_below hdistinct, collapse_mk, value_mk, dependencies_mk]
  simp only [chain_normalize, collapse, chain_map_regroup chain_normalize]

theorem meetsAt_collapse_iff_forall_of_distinct (hne : ds ≠ []) (hdistinct : t.DistinctSiblings) :
    t.MeetsAt c (Scope.mk v o ds).collapse ↔ ∀ d ∈ ds, t.MeetsAt c (Scope.mk v o [d]).collapse := by
  refine ⟨fun h d hd => h.of_term hd, fun h => ?_⟩
  simp only [meetsAt_collapse_iff_below hdistinct] at h ⊢
  obtain ⟨first, hfirst⟩ := List.exists_mem_of_ne_nil _ hne
  refine ⟨(h first hfirst).1, fun p hp => ?_⟩
  by_cases hnil : p = []
  · rw [hnil]
    trivial
  · obtain ⟨d, hd, hdp⟩ := exists_chain_singleton hp hnil
    exact (h d hd).2 p hdp

/-! ## Written requirements -/

/-- The text of a value with terms in its brackets. -/
def bracketed (v : String) (terms : List String) : String :=
  v ++ "[" ++ " ".intercalate terms ++ "]"

/-- The text is read as one scope, and the tree meets it. -/
def MeetsText (t : ConsentTree) (text : String) : Prop :=
  (Scope.parseOne text).map t.meets = .ok true

theorem terms_bracketed {terms : List (Scope × String)} (hv : IsValue v) (hne : terms ≠ [])
    (hterms : ∀ term ∈ terms, Terms [term.1] term.2.toList) :
    Terms [Scope.mk v false (terms.map Prod.fst)]
      (bracketed v (terms.map Prod.snd)).toList := by
  have hblock := Terms.block (o := false) hv isGap_nil (terms_intercalate hne hterms) isGap_nil
  simpa [bracketed, heading] using hblock

/-- A text that is left of a text that can be read can be read as well, and it is met where its
merged terms are. -/
theorem meetsText_bracketed_iff {consents : List Consent} (h : t.Holds consents) (hv : IsValue v)
    {terms part : List (Scope × String)} (hterms : ∀ term ∈ terms, Terms [term.1] term.2.toList)
    {r : Scope} (hparse : Scope.parseOne (bracketed v (terms.map Prod.snd)) = .ok r)
    (hsub : part ⊆ terms) (hne : part ≠ []) :
    (∃ s, Scope.parseOne (bracketed v (part.map Prod.snd)) = .ok s) ∧
      (t.MeetsText (bracketed v (part.map Prod.snd)) ↔
        t.MeetsAt t.root (Scope.mk v false (part.map Prod.fst)).collapse) := by
  have hall : terms ≠ [] := fun hnil => hne (List.subset_nil.1 (hnil ▸ hsub))
  have hclear := ((Parser.parseOne_eq_ok_iff (terms_bracketed hv hall hterms)).1 hparse).1
  have hpart : Clear [] [Scope.mk v false (part.map Prod.fst)] := by
    rw [clear_singleton] at hclear ⊢
    exact hclear.mono (List.map_subset _ hsub)
  have hread := (Parser.parseOne_eq_ok_iff
    (terms_bracketed hv hne fun term hterm => hterms term (hsub hterm))).2 ⟨hpart, rfl⟩
  refine ⟨⟨_, hread⟩, ?_⟩
  rw [MeetsText, hread, ← h.meets_iff]
  exact ⟨fun hmeets => Except.ok.inj hmeets, fun hmeets => congrArg _ hmeets⟩

end ConsentTree

open ConsentTree

/-- A tree that meets a value with terms in its brackets meets the value with each of the terms, and
it meets the former exactly if it meets, for each value among the terms, the terms with this value
together. So each term may be met on its own where the values of the terms differ, and in a tree
whose siblings differ. -/
theorem meetsText_bracketed_iff_forall_term (v : String) (hv : IsValue v)
    (terms : List (Scope × String)) (hne : terms ≠ [])
    (hterms : ∀ term ∈ terms, Terms [term.1] term.2.toList) (r : Scope)
    (hparse : Scope.parseOne (bracketed v (terms.map Prod.snd)) = .ok r)
    (rootId : ConsentId) (consents : List Consent) (t : ConsentTree)
    (ht : ConsentTree.ofList rootId consents = .ok t) :
    (∀ term ∈ terms, ∃ s, Scope.parseOne (bracketed v [term.2]) = .ok s) ∧
    (t.MeetsText (bracketed v (terms.map Prod.snd)) →
      ∀ term ∈ terms, t.MeetsText (bracketed v [term.2])) ∧
    (t.MeetsText (bracketed v (terms.map Prod.snd)) ↔
      ∀ term ∈ terms, t.MeetsText
        (bracketed v ((terms.filter (·.1.value == term.1.value)).map Prod.snd))) ∧
    ((terms.map (·.1.value)).Nodup →
      (t.MeetsText (bracketed v (terms.map Prod.snd)) ↔
        ∀ term ∈ terms, t.MeetsText (bracketed v [term.2]))) ∧
    (t.DistinctSiblings →
      (t.MeetsText (bracketed v (terms.map Prod.snd)) ↔
        ∀ term ∈ terms, t.MeetsText (bracketed v [term.2]))) := by
  have hpart := fun {part : List (Scope × String)} => @meetsText_bracketed_iff t v consents
    (holds_of_ofList ht) hv terms part hterms r hparse
  have hall := (hpart (List.Subset.refl terms) hne).2
  have hone : ∀ term ∈ terms, (∃ s, Scope.parseOne (bracketed v [term.2]) = .ok s) ∧
      (t.MeetsText (bracketed v [term.2]) ↔
        t.MeetsAt t.root (Scope.mk v false [term.1]).collapse) :=
    fun term hterm => @hpart [term] (by simpa using hterm) (List.cons_ne_nil _ _)
  have hds : terms.map Prod.fst ≠ [] := by simpa using hne
  have hforall : (∀ term ∈ terms, t.MeetsText (bracketed v [term.2])) ↔
      ∀ d ∈ terms.map Prod.fst, t.MeetsAt t.root (Scope.mk v false [d]).collapse := by
    rw [List.forall_mem_map]
    exact forall₂_congr fun term hterm => (hone term hterm).2
  refine ⟨fun term hterm => (hone term hterm).1, ?_, ?_, ?_, ?_⟩
  · rw [hall, hforall]
    exact fun h d hd => h.of_term hd
  · rw [hall, meetsAt_collapse_iff_forall_value hds, List.forall_mem_map]
    refine forall₂_congr fun term hterm => ?_
    have hmem : term ∈ terms.filter (·.1.value == term.1.value) :=
      List.mem_filter.2 ⟨hterm, beq_self_eq_true _⟩
    rw [(hpart (List.filter_subset_self _) (List.ne_nil_of_mem hmem)).2, List.filter_map]
    rfl
  · intro hnodup
    rw [hall, hforall]
    exact meetsAt_collapse_iff_forall_of_nodup hds (by rwa [List.map_map])
  · intro hdistinct
    rw [hall, hforall]
    exact meetsAt_collapse_iff_forall_of_distinct hds hdistinct

def distinctChildren : List Consent :=
  [{ id := 1, client := "app", scopeValue := "a", path := [1] },
    { id := 2, client := "app", scopeValue := "b", path := [1, 2] },
    { id := 3, client := "app", scopeValue := "c", path := [1, 2, 3] },
    { id := 4, client := "app", scopeValue := "d", path := [1, 4] }]

def distinctTerms : List (Scope × String) :=
  [(.mk "b" false [.leaf "c" false], "b[c]"), (.leaf "d" false, "d")]

/-- Two terms with different values, in a tree whose siblings differ. -/
theorem meetsText_bracketed_of_distinct :
    ∃ t, ConsentTree.ofList 1 distinctChildren = .ok t ∧
      t.DistinctSiblings ∧
      (distinctTerms.map (·.1.value)).Nodup ∧
      t.MeetsText (bracketed "a" (distinctTerms.map Prod.snd)) ∧
      (t.MeetsText (bracketed "a" (distinctTerms.map Prod.snd)) ↔
        ∀ term ∈ distinctTerms, t.MeetsText (bracketed "a" [term.2])) ∧
      t.MeetsText (bracketed "a" ["d"]) := by
  have hmeets : (ConsentTree.ofList 1 distinctChildren).map
      (fun t => (Scope.parseOne (bracketed "a" (distinctTerms.map Prod.snd))).map t.meets) =
      .ok (.ok true) := by decide +kernel
  obtain ⟨t, ht, hboth⟩ := map_eq_ok_iff.1 hmeets
  obtain ⟨r, hparse, -⟩ := map_eq_ok_iff.1 hboth
  have hfault : ∀ v ∈ ["a", "b", "c", "d"], valueFault? v = none := by decide +kernel
  have hvalue : ∀ v ∈ ["a", "b", "c", "d"], IsValue v :=
    fun v hv => valueFault?_eq_none_iff.1 (hfault v hv)
  have hc : Terms [.leaf "c" false] "c".toList := .plain (o := false) (hvalue "c" (by simp))
  have hbc : Terms [.mk "b" false [.leaf "c" false]] "b[c]".toList :=
    .block (o := false) (hvalue "b" (by simp)) isGap_nil hc isGap_nil
  have hd : Terms [.leaf "d" false] "d".toList := .plain (o := false) (hvalue "d" (by simp))
  have hterms : ∀ term ∈ distinctTerms, Terms [term.1] term.2.toList :=
    List.forall_mem_cons.2 ⟨hbc, List.forall_mem_singleton.2 hd⟩
  have hdistinct : t.DistinctSiblings := by
    intro c k k' hk hk'
    have hmem := ((holds_of_ofList ht).stored _ _).1 hk.1
    have hmem' := ((holds_of_ofList ht).stored _ _).1 hk'.1
    exact List.inj_on_of_nodup_map (f := Consent.scopeValue) (by decide) hmem.1 hmem'.1
  have hnodup : (distinctTerms.map (·.1.value)).Nodup := by decide
  obtain ⟨-, -, -, hdifferent, hsiblings⟩ := meetsText_bracketed_iff_forall_term "a"
    (hvalue "a" (by simp)) distinctTerms (List.cons_ne_nil _ _) hterms r hparse 1 _ t ht
  refine ⟨t, ht, hdistinct, hnodup, hboth, hdifferent hnodup, ?_⟩
  exact (hsiblings hdistinct).1 hboth (.leaf "d" false, "d") (by simp [distinctTerms])

/-- Two children of the root have the same value, and their children differ. -/
def partedBranches : List Consent :=
  [{ id := 1, client := "app", scopeValue := "A", path := [1] },
    { id := 2, client := "app", scopeValue := "B", path := [1, 2] },
    { id := 3, client := "app", scopeValue := "C", path := [1, 2, 3] },
    { id := 4, client := "app", scopeValue := "B", path := [1, 4] },
    { id := 5, client := "app", scopeValue := "D", path := [1, 4, 5] }]

def partedTerms : List String :=
  ["B[C]", "B[D]"]

/-- The two branches of one tree meet a term each, but no child meets both, as it would have to:
when the text is read, its terms with one value are merged. -/
theorem not_meetsText_bracketed_of_two_branches :
    ∃ t, ConsentTree.ofList 1 partedBranches = .ok t ∧
      (∃ s, Scope.parseOne (bracketed "A" partedTerms) = .ok s) ∧
      (∀ term ∈ partedTerms, t.MeetsText (bracketed "A" [term])) ∧
      ¬ t.MeetsText (bracketed "A" partedTerms) := by
  have hmeets : (ConsentTree.ofList 1 partedBranches).map
      (fun t => (partedTerms.map fun term =>
          (Scope.parseOne (bracketed "A" [term])).map t.meets,
        (Scope.parseOne (bracketed "A" partedTerms)).map t.meets)) =
      .ok ([.ok true, .ok true], .ok false) := by decide +kernel
  obtain ⟨t, ht, hpair⟩ := map_eq_ok_iff.1 hmeets
  obtain ⟨hterms, hboth⟩ := Prod.mk.inj hpair
  obtain ⟨s, hparse, -⟩ := map_eq_ok_iff.1 hboth
  refine ⟨t, ht, ⟨s, hparse⟩, ?_, fun h => ?_⟩
  · simpa [MeetsText, partedTerms] using hterms
  · rw [MeetsText, hboth] at h
    cases h

end ScopeGrant
