import ScopeGrant.Scope.Basic
import Mathlib.Data.List.Nodup
import Mathlib.Logic.Relation

/-!
# Chains of values

A chain of a list of scopes is a row of values that leads down from the list: the value of one of
its scopes, the value of a dependency of that scope, and so on. Most of what matters about a scope
tree is a property of its chains. In particular no scope of a tree repeats the value of a scope
above it exactly if no chain of the tree holds a value twice (`acyclic_iff`), so whatever keeps the
chains of a tree also keeps it free of cycles.
-/

namespace ScopeGrant.Scope

open Relation

/-- `d` is a dependency of `s`. -/
def Depends (s d : Scope) : Prop := d ∈ s.dependencies

/-- `Chain ds p` says that the values `p` lead down from the list `ds`. -/
def Chain : List Scope → List String → Prop
  | _, [] => True
  | ds, v :: p => ∃ d ∈ ds, d.value = v ∧ Chain d.dependencies p

@[simp] theorem chain_nil (ds : List Scope) : Chain ds [] := by
  simp [Chain]

theorem chain_cons {ds : List Scope} {v : String} {p : List String} :
    Chain ds (v :: p) ↔ ∃ d ∈ ds, d.value = v ∧ Chain d.dependencies p := by
  rw [Chain]

theorem chain_empty_iff {p : List String} : Chain [] p ↔ p = [] := by
  cases p with
  | nil => simp
  | cons v p => simp [chain_cons]

theorem chain_append {ds es : List Scope} {p : List String} :
    Chain (ds ++ es) p ↔ Chain ds p ∨ Chain es p := by
  cases p with
  | nil => simp
  | cons v p => simp only [chain_cons, List.mem_append, or_and_right, exists_or]

theorem chain_singleton {s : Scope} {v : String} {p : List String} :
    Chain [s] (v :: p) ↔ s.value = v ∧ Chain s.dependencies p := by
  simp [chain_cons]

/-- A chain of a list begins in one of its scopes. -/
theorem exists_chain_singleton {ds : List Scope} {p : List String} (h : Chain ds p) (hp : p ≠ []) :
    ∃ d ∈ ds, Chain [d] p := by
  cases p with
  | nil => exact absurd rfl hp
  | cons v p =>
    obtain ⟨d, hd, hv, hp⟩ := chain_cons.1 h
    exact ⟨d, hd, chain_singleton.2 ⟨hv, hp⟩⟩

theorem Chain.of_mem {ds : List Scope} {d : Scope} {p : List String} (hd : d ∈ ds)
    (h : Chain [d] p) : Chain ds p := by
  cases p with
  | nil => exact chain_nil ds
  | cons v p =>
    obtain ⟨hv, hp⟩ := chain_singleton.1 h
    exact chain_cons.2 ⟨d, hd, hv, hp⟩

/-- A chain of the dependencies, continued upwards to the scope itself. -/
theorem Chain.up {s : Scope} {p : List String} (h : Chain s.dependencies p) :
    Chain [s] (s.value :: p) :=
  chain_singleton.2 ⟨rfl, h⟩

theorem Chain.mono {ds es : List Scope} {p : List String} (hsub : ds ⊆ es) (h : Chain ds p) :
    Chain es p := by
  cases p with
  | nil => exact chain_nil es
  | cons v p =>
    obtain ⟨d, hd, hv, hp⟩ := chain_cons.1 h
    exact chain_cons.2 ⟨d, hsub hd, hv, hp⟩

/-- Each beginning of a chain is a chain. -/
theorem Chain.of_append {ds : List Scope} {p q : List String} (h : Chain ds (p ++ q)) :
    Chain ds p := by
  induction p generalizing ds with
  | nil => exact chain_nil ds
  | cons v p ih =>
    obtain ⟨d, hd, hv, hp⟩ := chain_cons.1 h
    exact chain_cons.2 ⟨d, hd, hv, ih hp⟩

/-- A change of trees keeps the chains if it keeps the value at the top and changes what lies below
in the same way, up to the chains. -/
theorem chain_map {f : Scope → Scope} (hvalue : ∀ s, (f s).value = s.value)
    (hbelow : ∀ s p, Chain (f s).dependencies p ↔ Chain (s.dependencies.map f) p)
    (ds : List Scope) (p : List String) : Chain (ds.map f) p ↔ Chain ds p := by
  induction p generalizing ds with
  | nil => simp
  | cons v p ih =>
    simp only [chain_cons, List.mem_map, exists_exists_and_eq_and]
    refine exists_congr fun d => and_congr_right fun _ => ?_
    rw [hvalue, hbelow, ih]

/-! ## Changing every list of dependencies -/

mutual

/-- The tree with each list of dependencies in it changed by `f`, from the inside out. -/
def regroup (f : List Scope → List Scope) : Scope → Scope
  | mk v o ds => mk v o (f (regroupList f ds))

/-- The trees of a list, each one regrouped. -/
def regroupList (f : List Scope → List Scope) : List Scope → List Scope
  | [] => []
  | d :: ds => regroup f d :: regroupList f ds

end

theorem regroupList_eq (f : List Scope → List Scope) (ds : List Scope) :
    regroupList f ds = ds.map (regroup f) := by
  induction ds with
  | nil => rfl
  | cons d ds ih => rw [regroupList, ih, List.map_cons]

theorem regroup_mk (f : List Scope → List Scope) (v : String) (o : Bool) (ds : List Scope) :
    regroup f (mk v o ds) = mk v o (f (ds.map (regroup f))) := by
  rw [regroup, regroupList_eq]

@[simp] theorem value_regroup (f : List Scope → List Scope) (s : Scope) :
    (regroup f s).value = s.value := by
  cases s; rfl

theorem dependencies_regroup (f : List Scope → List Scope) (s : Scope) :
    (regroup f s).dependencies = f (s.dependencies.map (regroup f)) := by
  cases s with
  | mk v o ds => rw [regroup_mk, dependencies_mk, dependencies_mk]

/-- Regrouping keeps the chains if `f` does. -/
theorem chain_map_regroup {f : List Scope → List Scope} (hf : ∀ ds p, Chain (f ds) p ↔ Chain ds p)
    (ds : List Scope) (p : List String) : Chain (ds.map (regroup f)) p ↔ Chain ds p := by
  refine chain_map (value_regroup f) (fun s q => ?_) ds p
  rw [dependencies_regroup, hf]

/-! ## All chains of a scope -/

mutual

/-- The chains of the scope, without the empty one. -/
def chains : Scope → List (List String)
  | mk v _ ds => [v] :: (chainsList ds).map (v :: ·)

/-- The chains of the trees of a list, without the empty one. -/
def chainsList : List Scope → List (List String)
  | [] => []
  | d :: ds => chains d ++ chainsList ds

end

theorem chainsList_eq (ds : List Scope) : chainsList ds = ds.flatMap chains := by
  induction ds with
  | nil => rfl
  | cons d ds ih => rw [chainsList, ih, List.flatMap_cons]

theorem mem_chains_iff {s : Scope} {p : List String} : p ∈ s.chains ↔ p ≠ [] ∧ Chain [s] p := by
  induction s generalizing p with
  | mk v o ds ih =>
    rw [chains, chainsList_eq, List.mem_cons, List.mem_map]
    constructor
    · rintro (rfl | ⟨q, hq, rfl⟩)
      · exact ⟨List.cons_ne_nil _ _, chain_singleton.2 ⟨rfl, chain_nil _⟩⟩
      · obtain ⟨d, hd, hq⟩ := List.mem_flatMap.1 hq
        exact ⟨List.cons_ne_nil _ _, chain_singleton.2 ⟨rfl, ((ih d hd).1 hq).2.of_mem hd⟩⟩
    · rintro ⟨hne, hp⟩
      obtain ⟨w, q, rfl⟩ := List.exists_cons_of_ne_nil hne
      obtain ⟨rfl, hq⟩ := chain_singleton.1 hp
      by_cases hnil : q = []
      · exact Or.inl (by rw [hnil]; rfl)
      · obtain ⟨d, hd, hdq⟩ := exists_chain_singleton hq hnil
        exact Or.inr ⟨q, List.mem_flatMap.2 ⟨d, hd, (ih d hd).2 ⟨hnil, hdq⟩⟩, rfl⟩

theorem length_chains (s : Scope) : s.chains.length = s.size := by
  induction s with
  | mk v o ds ih =>
    have hbelow : (chainsList ds).length = sizeList ds := by
      induction ds with
      | nil => rfl
      | cons d ds ih' =>
        rw [chainsList, List.length_append, sizeList_cons, ih d (List.mem_cons_self ..),
          ih' fun e he => ih e (List.mem_cons_of_mem _ he)]
    rw [chains, List.length_cons, List.length_map, hbelow]
    rfl

theorem singleton_mem_chains (s : Scope) : [s.value] ∈ s.chains :=
  mem_chains_iff.2 ⟨List.cons_ne_nil _ _, (chain_nil _).up⟩

/-! ## Scopes inside a tree -/

/-- A scope inside a tree is the tree itself or lies inside one of its dependencies. -/
theorem reflTransGen_depends_iff {s t : Scope} :
    ReflTransGen Depends s t ↔ t = s ∨ ∃ d ∈ s.dependencies, ReflTransGen Depends d t := by
  rw [ReflTransGen.cases_head_iff]
  constructor
  · rintro (h | ⟨d, hd, h⟩)
    · exact Or.inl h.symm
    · exact Or.inr ⟨d, hd, h⟩
  · rintro (h | ⟨d, hd, h⟩)
    · exact Or.inl h.symm
    · exact Or.inr ⟨d, hd, h⟩

/-- What holds of every scope inside a tree holds of its root and inside every dependency. -/
theorem forall_inside_iff {s : Scope} {P : Scope → Prop} :
    (∀ t, ReflTransGen Depends s t → P t) ↔
      P s ∧ ∀ d ∈ s.dependencies, ∀ t, ReflTransGen Depends d t → P t := by
  simp only [reflTransGen_depends_iff (s := s), or_imp, forall_and, forall_eq]
  refine and_congr_right fun _ => ⟨fun h d hd t ht => h t ⟨d, hd, ht⟩, ?_⟩
  rintro h t ⟨d, hd, ht⟩
  exact h d hd t ht

/-- Every value of a chain is carried by a scope inside the list. -/
theorem Chain.exists_inside {ds : List Scope} {p : List String} {v : String} (h : Chain ds p)
    (hv : v ∈ p) : ∃ d ∈ ds, ∃ t, ReflTransGen Depends d t ∧ t.value = v := by
  induction p generalizing ds with
  | nil => exact absurd hv (by simp)
  | cons w p ih =>
    obtain ⟨d, hd, hw, hp⟩ := chain_cons.1 h
    rcases List.mem_cons.1 hv with rfl | hv
    · exact ⟨d, hd, d, .refl, hw⟩
    · obtain ⟨e, he, t, ht, htv⟩ := ih hp hv
      exact ⟨d, hd, t, .head he ht, htv⟩

/-- Every scope inside a tree ends a chain of the tree. -/
theorem exists_chain_of_inside {s t : Scope} (h : ReflTransGen Depends s t) :
    ∃ p, Chain [s] (p ++ [t.value]) := by
  induction h using ReflTransGen.head_induction_on with
  | refl => exact ⟨[], chain_singleton.2 ⟨rfl, chain_nil _⟩⟩
  | @head s d hd _ ih =>
    obtain ⟨p, hp⟩ := ih
    exact ⟨s.value :: p, (hp.of_mem hd).up⟩

/-- What holds of the value of every scope inside a tree is what holds of every value in its
chains. -/
theorem forall_value_inside_iff {s : Scope} {P : String → Prop} :
    (∀ t, ReflTransGen Depends s t → P t.value) ↔ ∀ p, Chain [s] p → ∀ v ∈ p, P v := by
  constructor
  · intro h p hp v hv
    obtain ⟨d, hd, t, ht, rfl⟩ := hp.exists_inside hv
    rw [List.mem_singleton.1 hd] at ht
    exact h t ht
  · intro h t ht
    obtain ⟨p, hp⟩ := exists_chain_of_inside ht
    exact h _ hp _ (by simp)

/-! ## Trees without cycles -/

/-- No scope inside the tree carries the value of a scope that it lies below. -/
def Acyclic (s : Scope) : Prop :=
  ∀ t, ReflTransGen Depends s t → ∀ u, TransGen Depends t u → u.value ≠ t.value

theorem Acyclic.of_mem {s d : Scope} (h : s.Acyclic) (hd : d ∈ s.dependencies) : d.Acyclic :=
  fun t ht => h t (.head hd ht)

/-- A tree has no cycle exactly if no chain of it holds a value twice. -/
theorem acyclic_iff {s : Scope} : s.Acyclic ↔ ∀ p, Chain [s] p → p.Nodup := by
  constructor
  · intro h
    induction s with
    | mk v o ds ih =>
      intro p hp
      cases p with
      | nil => exact List.nodup_nil
      | cons w p =>
        obtain ⟨rfl, hbelow⟩ := chain_singleton.1 hp
        refine List.nodup_cons.2 ⟨fun hv => ?_, ?_⟩
        · obtain ⟨d, hd, t, ht, htv⟩ := hbelow.exists_inside hv
          exact h _ .refl t (.head' hd ht) htv
        · by_cases hnil : p = []
          · rw [hnil]; exact List.nodup_nil
          · obtain ⟨d, hd, hdp⟩ := exists_chain_singleton hbelow hnil
            exact ih d hd (h.of_mem hd) p hdp
  · intro h t ht
    induction ht using ReflTransGen.head_induction_on with
    | refl =>
      intro u hu hv
      obtain ⟨d, hd, hdu⟩ := TransGen.head'_iff.1 hu
      obtain ⟨p, hp⟩ := exists_chain_of_inside hdu
      have hnodup := h _ (hp.of_mem hd).up
      rw [hv] at hnodup
      exact (List.nodup_cons.1 hnodup).1 (by simp)
    | head hd _ ih =>
      exact ih fun p hp => (List.nodup_cons.1 (h _ (hp.of_mem hd).up)).2

/-! ## Trees below owners -/

/-- The list may stand below the scopes with the values `owners`, outermost first: continued with a
chain of the list, these values never repeat. -/
def Clear (owners : List String) (ds : List Scope) : Prop :=
  ∀ p, Chain ds p → (owners ++ p).Nodup

theorem Clear.nodup {owners : List String} {ds : List Scope} (h : Clear owners ds) :
    owners.Nodup := by
  simpa using h [] (chain_nil ds)

theorem clear_nil {owners : List String} : Clear owners [] ↔ owners.Nodup := by
  refine ⟨Clear.nodup, fun h p hp => ?_⟩
  rw [chain_empty_iff.1 hp, List.append_nil]
  exact h

theorem clear_append {owners : List String} {ds es : List Scope} :
    Clear owners (ds ++ es) ↔ Clear owners ds ∧ Clear owners es := by
  simp only [Clear, chain_append, or_imp, forall_and]

theorem clear_cons {owners : List String} {s : Scope} {ds : List Scope} :
    Clear owners (s :: ds) ↔ Clear owners [s] ∧ Clear owners ds := by
  rw [← List.singleton_append, clear_append]

/-- A scope may stand below owners if its dependencies may stand below these and the scope. -/
theorem clear_singleton {owners : List String} {s : Scope} :
    Clear owners [s] ↔ Clear (owners ++ [s.value]) s.dependencies := by
  constructor
  · intro h p hp
    simpa using h _ hp.up
  · intro h p hp
    cases p with
    | nil =>
      have hnodup := h.nodup.of_append_left
      simpa using hnodup
    | cons v p =>
      obtain ⟨rfl, hbelow⟩ := chain_singleton.1 hp
      simpa using h p hbelow

theorem Clear.mono {owners : List String} {ds es : List Scope} (hsub : ds ⊆ es)
    (h : Clear owners es) : Clear owners ds :=
  fun p hp => h p (hp.mono hsub)

/-- At the top level a list is clear if each of its trees is free of cycles. -/
theorem clear_top_iff {ds : List Scope} : Clear [] ds ↔ ∀ d ∈ ds, d.Acyclic := by
  simp only [Clear, List.nil_append, acyclic_iff]
  constructor
  · exact fun h d hd p hp => h p (hp.of_mem hd)
  · intro h p hp
    by_cases hnil : p = []
    · rw [hnil]; exact List.nodup_nil
    · obtain ⟨d, hd, hdp⟩ := exists_chain_singleton hp hnil
      exact h d hd p hdp

/-- A list without cycles may stand below a scope whose value none of its trees carries. -/
theorem clear_owner_iff {v : String} {ds : List Scope} (h : Clear [] ds) :
    Clear [v] ds ↔ ∀ d ∈ ds, ∀ t, ReflTransGen Depends d t → t.value ≠ v := by
  constructor
  · intro hclear d hd t ht htv
    obtain ⟨p, hp⟩ := exists_chain_of_inside ht
    have hnodup := hclear _ (hp.of_mem hd)
    rw [htv] at hnodup
    simp at hnodup
  · intro hinside p hp
    refine List.nodup_cons.2 ⟨fun hv => ?_, h p hp⟩
    obtain ⟨d, hd, t, ht, htv⟩ := hp.exists_inside hv
    exact hinside d hd t ht htv

/-! ## The first cycle -/

mutual

/-- The first scope of the tree, in the order of writing, that repeats a value from above it, if
`owners` stand above the tree: the values above that scope, outermost first, and its own value. -/
def firstCycle? (owners : List String) : Scope → Option (List String × String)
  | mk v _ ds => if v ∈ owners then some (owners, v) else firstCycleList? (owners ++ [v]) ds

/-- The same for the trees of a list. -/
def firstCycleList? (owners : List String) : List Scope → Option (List String × String)
  | [] => none
  | d :: ds => (firstCycle? owners d).or (firstCycleList? owners ds)

end

@[simp] theorem firstCycleList?_singleton (owners : List String) (s : Scope) :
    firstCycleList? owners [s] = firstCycle? owners s := by
  simp [firstCycleList?]

theorem firstCycleList?_eq_none_of {owners : List String} (howners : owners.Nodup)
    {ds : List Scope} (hds : ∀ d ∈ ds, firstCycle? owners d = none ↔ Clear owners [d]) :
    firstCycleList? owners ds = none ↔ Clear owners ds := by
  induction ds with
  | nil => simp [firstCycleList?, clear_nil, howners]
  | cons d ds ih =>
    rw [firstCycleList?, Option.or_eq_none_iff, clear_cons, hds d (List.mem_cons_self ..),
      ih fun e he => hds e (List.mem_cons_of_mem _ he)]

theorem firstCycle?_eq_none_iff {owners : List String} (howners : owners.Nodup) (s : Scope) :
    firstCycle? owners s = none ↔ Clear owners [s] := by
  induction s generalizing owners with
  | mk v o ds ih =>
    rw [clear_singleton, firstCycle?]
    by_cases hv : v ∈ owners
    · have hnot : ¬ Clear (owners ++ [v]) ds := by
        intro h
        exact (List.nodup_append.1 h.nodup).2.2 v hv v (List.mem_singleton_self v) rfl
      simp [hv, hnot]
    · have hnodup : (owners ++ [v]).Nodup := by
        rw [← List.concat_eq_append]
        exact howners.concat hv
      rw [if_neg hv]
      exact firstCycleList?_eq_none_of hnodup fun d hd => ih d hd hnodup

/-- There is no first cycle exactly if the list may stand below its owners. -/
theorem firstCycleList?_eq_none_iff {owners : List String} (howners : owners.Nodup)
    {ds : List Scope} : firstCycleList? owners ds = none ↔ Clear owners ds :=
  firstCycleList?_eq_none_of howners fun d _ => firstCycle?_eq_none_iff howners d

theorem mem_of_firstCycleList?_of {above owners chain : List String} {v : String} {ds : List Scope}
    (hds : ∀ d ∈ ds, firstCycle? owners d = none →
      firstCycle? (above ++ owners) d = some (chain, v) → v ∈ above)
    (hnone : firstCycleList? owners ds = none)
    (h : firstCycleList? (above ++ owners) ds = some (chain, v)) : v ∈ above := by
  induction ds with
  | nil => cases h
  | cons d ds ih =>
    obtain ⟨hd, hrest⟩ := List.forall_mem_cons.1 hds
    rw [firstCycleList?, Option.or_eq_none_iff] at hnone
    rw [firstCycleList?, Option.or_eq_some_iff] at h
    rcases h with h | ⟨-, h⟩
    · exact hd hnone.1 h
    · exact ih hrest hnone.2 h

theorem mem_of_firstCycle? {above owners chain : List String} {v : String} {s : Scope}
    (hnone : firstCycle? owners s = none)
    (h : firstCycle? (above ++ owners) s = some (chain, v)) : v ∈ above := by
  induction s generalizing owners with
  | mk w o ds ih =>
    rw [firstCycle?] at hnone h
    split at hnone
    · cases hnone
    rename_i hw
    split at h
    · rename_i hmem
      cases h
      exact (List.mem_append.1 hmem).resolve_right hw
    · rw [List.append_assoc] at h
      exact mem_of_firstCycleList?_of (fun d hd => ih d hd) hnone h

/-- A cycle that arises only when further scopes stand above the list goes back to one of these. -/
theorem mem_of_firstCycleList? {above owners chain : List String} {v : String} {ds : List Scope}
    (hnone : firstCycleList? owners ds = none)
    (h : firstCycleList? (above ++ owners) ds = some (chain, v)) : v ∈ above :=
  mem_of_firstCycleList?_of (fun _ _ => mem_of_firstCycle?) hnone h

end ScopeGrant.Scope
