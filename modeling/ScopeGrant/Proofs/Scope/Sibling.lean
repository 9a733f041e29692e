import ScopeGrant.Proofs.Scope.Chain
import ScopeGrant.Proofs.Scope.Rebuild
import ScopeGrant.Scope.Sibling
import Mathlib.Data.List.Induction

/-!
# What merging siblings does

Merging neither adds nor loses a chain of values (`chain_normalize`), and if no value is repeated
inside the merged trees, none is repeated in the result, at any level (`tidyList_normalize`). The
second statement is where it matters that a list which has taken in nothing is left as it is: such a
list belongs to a tree that had no repeats before. A list without repeats is not changed at all
(`normalize_of_nodup`).

A tree as written may repeat siblings at every level. `collapse` is what becomes of it when each
list in it is merged, from the inside out.
-/

namespace ScopeGrant.Scope

open Relation

/-- No scope inside the tree has two dependencies with the same value. -/
def Tidy (s : Scope) : Prop :=
  ∀ t, ReflTransGen Depends s t → (t.dependencies.map value).Nodup

/-- No value is repeated among the scopes of the list, nor among siblings inside them. -/
def TidyList (ds : List Scope) : Prop :=
  (ds.map value).Nodup ∧ ∀ d ∈ ds, d.Tidy

theorem tidy_iff {s : Scope} : s.Tidy ↔ TidyList s.dependencies :=
  forall_inside_iff

theorem tidy_mk {v : String} {o : Bool} {ds : List Scope} : (mk v o ds).Tidy ↔ TidyList ds :=
  tidy_iff

theorem tidyList_singleton {s : Scope} : TidyList [s] ↔ s.Tidy := by
  simp [TidyList]

theorem Tidy.of_mem {s d : Scope} (h : s.Tidy) (hd : d ∈ s.dependencies) : d.Tidy :=
  (tidy_iff.1 h).2 d hd

/-- A change of trees leaves siblings different if it keeps values and, but for their stored order,
which dependencies there are. -/
theorem tidy_map {f : Scope → Scope} (hvalue : ∀ s, (f s).value = s.value)
    (hbelow : ∀ s, (f s).dependencies.Perm (s.dependencies.map f)) {s : Scope} (h : s.Tidy) :
    (f s).Tidy := by
  induction s with
  | mk v o ds ih =>
    have hvalues : (ds.map f).map value = ds.map value := by
      rw [List.map_map]
      exact List.map_congr_left fun d _ => hvalue d
    rw [tidy_iff]
    constructor
    · rw [((hbelow _).map value).nodup_iff, dependencies_mk, hvalues]
      exact (tidy_iff.1 h).1
    · intro e he
      obtain ⟨d, hd, rfl⟩ := List.mem_map.1 ((hbelow _).mem_iff.1 he)
      exact ih d hd (h.of_mem hd)

theorem Merged.task_plain (m : Merged) : m.task.Plain := by
  unfold Merged.task
  split <;> trivial

theorem merging_plain : merging.Plain := by
  intro ds t ht
  obtain ⟨m, -, rfl⟩ := List.mem_map.1 ht
  exact m.task_plain

/-- The scope of a merged list in its final form. -/
def Merged.settled (m : Merged) : Scope :=
  if m.grown then m.scope.setDependencies (normalize m.scope.dependencies) else m.scope

theorem settle_eq (ms : List Merged) : settle ms = ms.map Merged.settled := by
  have hplain : ∀ t ∈ ms.map Merged.task, t.Plain := by
    intro t ht
    obtain ⟨m, -, rfl⟩ := List.mem_map.1 ht
    exact m.task_plain
  rw [settle, results_eq merging_plain hplain, List.map_map]
  refine List.map_congr_left fun m _ => ?_
  rw [Function.comp_apply, Merged.task, Merged.settled]
  split
  · cases m.scope; rfl
  · rfl

theorem Merged.value_settled (m : Merged) : m.settled.value = m.scope.value := by
  unfold Merged.settled
  split
  · exact value_setDependencies _ _
  · rfl

theorem map_value_settle (ms : List Merged) :
    (settle ms).map value = ms.map (·.scope.value) := by
  rw [settle_eq, List.map_map]
  exact List.map_congr_left fun m _ => m.value_settled

/-! ## Chains -/

theorem chain_absorbInto (s : Scope) (ms : List Merged) (p : List String) :
    Chain ((absorbInto s ms).map Merged.scope) p ↔
      Chain (ms.map Merged.scope) p ∨ Chain [s] p := by
  cases p with
  | nil => simp
  | cons v p =>
    induction ms with
    | nil => simp [absorbInto, Merged.ofScope, chain_cons]
    | cons m ms ih =>
      simp only [absorbInto]
      split
      · rename_i hv
        rw [beq_iff_eq] at hv
        simp only [List.map_cons, chain_cons, List.exists_mem_cons_iff, Merged.absorb, value_mk,
          dependencies_mk, chain_append, hv, List.not_mem_nil, false_and, exists_false, or_false]
        rw [and_or_left, or_right_comm]
      · simp only [List.map_cons, chain_cons, List.exists_mem_cons_iff] at ih ⊢
        rw [ih, or_assoc]

theorem chain_foldl_absorbInto (ds : List Scope) (ms : List Merged) (p : List String) :
    Chain ((ds.foldl (fun merged s => absorbInto s merged) ms).map Merged.scope) p ↔
      Chain (ms.map Merged.scope) p ∨ Chain ds p := by
  induction ds generalizing ms with
  | nil =>
    rw [List.foldl_nil, chain_empty_iff]
    exact ⟨Or.inl, fun h => h.elim id fun hp => hp ▸ chain_nil _⟩
  | cons d ds ih =>
    rw [List.foldl_cons, ih, chain_absorbInto, or_assoc, ← chain_append, List.singleton_append]

theorem chain_mergeSiblings (ds : List Scope) (p : List String) :
    Chain ((mergeSiblings ds).map Merged.scope) p ↔ Chain ds p := by
  rw [mergeSiblings, chain_foldl_absorbInto, List.map_nil, chain_empty_iff]
  exact ⟨fun h => h.elim (fun hp => hp ▸ chain_nil _) id, Or.inr⟩

theorem chain_settle_of {ms : List Merged} {p : List String}
    (h : ∀ ds q, p.tail = q → (Chain (normalize ds) q ↔ Chain ds q)) :
    Chain (settle ms) p ↔ Chain (ms.map Merged.scope) p := by
  cases p with
  | nil => simp
  | cons v p =>
    simp only [settle_eq, chain_cons, List.mem_map, exists_exists_and_eq_and]
    refine exists_congr fun m => and_congr_right fun _ => ?_
    rw [m.value_settled]
    refine and_congr_right fun _ => ?_
    unfold Merged.settled
    split
    · rw [dependencies_setDependencies]
      exact h _ p rfl
    · exact Iff.rfl

/-- Merging keeps the chains of a list. -/
theorem chain_normalize (ds : List Scope) (p : List String) :
    Chain (normalize ds) p ↔ Chain ds p := by
  induction p generalizing ds with
  | nil => simp
  | cons v p ih =>
    rw [normalize, chain_settle_of, chain_mergeSiblings]
    rintro ds q rfl
    exact ih ds

theorem chain_settle (ms : List Merged) (p : List String) :
    Chain (settle ms) p ↔ Chain (ms.map Merged.scope) p :=
  chain_settle_of fun ds q _ => chain_normalize ds q

/-! ## Repeats -/

/-- A scope of a merged list: no value is repeated inside its dependencies, and none among them
unless the list has grown. -/
structure Merged.Sound (m : Merged) : Prop where
  below : ∀ d ∈ m.scope.dependencies, d.Tidy
  kept : m.grown = false → m.scope.Tidy

theorem Merged.Sound.ofScope {s : Scope} (hs : s.Tidy) : (Merged.ofScope s).Sound :=
  ⟨fun _ hd => hs.of_mem hd, fun _ => hs⟩

theorem Merged.Sound.absorb {m : Merged} {s : Scope} (hm : m.Sound) (hs : s.Tidy) :
    (m.absorb s).Sound := by
  constructor
  · intro d hd
    rcases List.mem_append.1 hd with hd | hd
    · exact hm.below d hd
    · exact hs.of_mem hd
  · intro hgrown
    obtain ⟨hgrown, hempty⟩ : m.grown = false ∧ s.dependencies = [] := by
      simpa [Merged.absorb] using hgrown
    have hkept := tidy_iff.1 (hm.kept hgrown)
    rw [tidy_iff, Merged.absorb, dependencies_mk, hempty, List.append_nil]
    exact hkept

/-- The entries of a merged list carry different values, and each of them is sound. -/
structure SoundList (ms : List Merged) : Prop where
  nodup : (ms.map (·.scope.value)).Nodup
  sound : ∀ m ∈ ms, m.Sound

theorem map_value_absorbInto (s : Scope) (ms : List Merged) :
    (absorbInto s ms).map (·.scope.value) =
      if s.value ∈ ms.map (·.scope.value) then ms.map (·.scope.value)
      else ms.map (·.scope.value) ++ [s.value] := by
  induction ms with
  | nil => simp [absorbInto, Merged.ofScope]
  | cons m ms ih =>
    simp only [absorbInto]
    by_cases hv : m.scope.value = s.value
    · simp [hv, Merged.absorb]
    · have hne : ¬ s.value = m.scope.value := fun h => hv h.symm
      simp only [beq_iff_eq, hv, if_false, List.map_cons, ih, List.mem_cons, hne, false_or]
      split <;> rfl

theorem mem_absorbInto {s : Scope} {ms : List Merged} {m : Merged} (h : m ∈ absorbInto s ms) :
    m ∈ ms ∨ m = .ofScope s ∨ ∃ m' ∈ ms, m = m'.absorb s := by
  induction ms with
  | nil => exact Or.inr (Or.inl (List.mem_singleton.1 h))
  | cons n ms ih =>
    simp only [absorbInto] at h
    split at h
    · rcases List.mem_cons.1 h with rfl | h
      · exact Or.inr (Or.inr ⟨n, List.mem_cons_self .., rfl⟩)
      · exact Or.inl (List.mem_cons_of_mem _ h)
    · rcases List.mem_cons.1 h with rfl | h
      · exact Or.inl (List.mem_cons_self ..)
      · rcases ih h with h | h | ⟨m', hm', rfl⟩
        · exact Or.inl (List.mem_cons_of_mem _ h)
        · exact Or.inr (Or.inl h)
        · exact Or.inr (Or.inr ⟨m', List.mem_cons_of_mem _ hm', rfl⟩)

theorem SoundList.absorbInto {s : Scope} {ms : List Merged} (h : SoundList ms) (hs : s.Tidy) :
    SoundList (absorbInto s ms) := by
  constructor
  · rw [map_value_absorbInto]
    split
    · exact h.nodup
    · rename_i hv
      rw [← List.concat_eq_append]
      exact h.nodup.concat hv
  · intro m hm
    rcases mem_absorbInto hm with hm | rfl | ⟨m', hm', rfl⟩
    · exact h.sound m hm
    · exact .ofScope hs
    · exact (h.sound m' hm').absorb hs

theorem SoundList.ofScopes {ds : List Scope} (h : TidyList ds) :
    SoundList (ds.map Merged.ofScope) := by
  constructor
  · rw [List.map_map]
    exact h.1
  · intro m hm
    obtain ⟨d, hd, rfl⟩ := List.mem_map.1 hm
    exact .ofScope (h.2 d hd)

theorem soundList_mergeSiblings {ds : List Scope} (hds : ∀ d ∈ ds, d.Tidy) :
    SoundList (mergeSiblings ds) := by
  have hfold : ∀ ms, SoundList ms →
      SoundList (ds.foldl (fun merged s => Scope.absorbInto s merged) ms) := by
    induction ds with
    | nil => exact fun _ h => h
    | cons d ds ih =>
      intro ms h
      exact ih (fun x hx => hds x (List.mem_cons_of_mem _ hx)) _
        (h.absorbInto (hds d (List.mem_cons_self ..)))
  exact hfold [] ⟨List.nodup_nil, by simp⟩

theorem tidyList_settle_of {ms : List Merged} (h : SoundList ms)
    (hgrown : ∀ m ∈ ms, m.grown → TidyList (normalize m.scope.dependencies)) :
    TidyList (settle ms) := by
  constructor
  · rw [map_value_settle]
    exact h.nodup
  · intro d hd
    rw [settle_eq] at hd
    obtain ⟨m, hm, rfl⟩ := List.mem_map.1 hd
    unfold Merged.settled
    split
    · rename_i hg
      rw [tidy_iff, dependencies_setDependencies]
      exact hgrown m hm hg
    · rename_i hg
      exact (h.sound m hm).kept (Bool.eq_false_iff.2 hg)

/-- What an entry of a merged list holds is smaller than the list. -/
theorem sizeList_dependencies_lt {ds : List Scope} {m : Merged} (hm : m ∈ mergeSiblings ds) :
    sizeList m.scope.dependencies < sizeList ds := by
  have hle := weightList_foldl_absorbInto_le ds []
  have hmem : ∀ ms : List Merged, m ∈ ms →
      2 * m.scope.size ≤ Task.weightList (ms.map Merged.task) := by
    intro ms
    induction ms with
    | nil => simp
    | cons n ms ih =>
      intro h
      rcases List.mem_cons.1 h with rfl | h
      · simp
      · have := ih h
        simp; omega
  have hsize := m.scope.size_eq
  have := hmem _ hm
  simp only [mergeSiblings, List.map_nil, Task.weightList_nil] at this hle
  omega

/-- Merging lists whose trees repeat no siblings leaves no repeated siblings, at any level. -/
theorem tidyList_normalize {ds : List Scope} (hds : ∀ d ∈ ds, d.Tidy) :
    TidyList (normalize ds) := by
  -- on the size: a list that is merged in its turn is put together from parts of several trees
  induction hn : sizeList ds using Nat.strongRecOn generalizing ds with
  | ind n ih =>
    subst hn
    have hsound := soundList_mergeSiblings hds
    exact tidyList_settle_of hsound fun m hm _ =>
      ih _ (sizeList_dependencies_lt hm) (hsound.sound m hm).below rfl

theorem tidyList_settle {ms : List Merged} (h : SoundList ms) : TidyList (settle ms) :=
  tidyList_settle_of h fun m hm _ => tidyList_normalize (h.sound m hm).below

theorem foldl_absorbInto_of_nodup {ds : List Scope} {ms : List Merged}
    (h : (ms.map (·.scope.value) ++ ds.map value).Nodup) :
    ds.foldl (fun merged s => absorbInto s merged) ms = ms ++ ds.map Merged.ofScope := by
  have happend : ∀ (s : Scope) (ns : List Merged), s.value ∉ ns.map (·.scope.value) →
      absorbInto s ns = ns ++ [.ofScope s] := by
    intro s ns
    induction ns with
    | nil => intro _; rfl
    | cons n ns ih =>
      intro hs
      obtain ⟨hne, hs⟩ := not_or.1 (List.mem_cons.not.1 hs)
      have hbeq : (n.scope.value == s.value) = false := beq_false_of_ne (Ne.symm hne)
      rw [absorbInto, hbeq, ih hs]
      rfl
  induction ds generalizing ms with
  | nil => simp
  | cons d ds ih =>
    have hd : d.value ∉ ms.map (·.scope.value) := by
      intro hmem
      exact (List.nodup_append.1 h).2.2 _ hmem d.value (by simp) rfl
    rw [List.foldl_cons, happend d ms hd, ih]
    · simp
    · simpa [Merged.ofScope] using h

/-- A list in which no value is repeated stays as it is. -/
theorem normalize_of_nodup {ds : List Scope} (h : (ds.map value).Nodup) : normalize ds = ds := by
  rw [normalize, mergeSiblings, foldl_absorbInto_of_nodup (by simpa using h), settle_eq,
    List.nil_append, List.map_map]
  exact List.map_id'' (fun _ => rfl) ds

/-! ## One value at a time -/

theorem filter_absorbInto_self (s : Scope) (ms : List Merged) :
    (absorbInto s ms).filter (·.scope.value == s.value) =
      absorbInto s (ms.filter (·.scope.value == s.value)) := by
  induction ms with
  | nil => simp [absorbInto, Merged.ofScope]
  | cons m ms ih =>
    rw [absorbInto]
    by_cases hm : m.scope.value = s.value
    · simp [hm, absorbInto, Merged.absorb]
    · simp [hm, ih]

theorem filter_absorbInto_of_ne {s : Scope} {v : String} (hs : s.value ≠ v) (ms : List Merged) :
    (absorbInto s ms).filter (·.scope.value == v) = ms.filter (·.scope.value == v) := by
  induction ms with
  | nil => simp [absorbInto, Merged.ofScope, hs]
  | cons m ms ih =>
    rw [absorbInto]
    by_cases hm : m.scope.value = s.value
    · simp [hm, hs, Merged.absorb]
    · rw [if_neg (by simpa using hm), List.filter_cons, List.filter_cons, ih]

theorem filter_mergeSiblings (ds : List Scope) (v : String) :
    (mergeSiblings ds).filter (·.scope.value == v) =
      mergeSiblings (ds.filter (·.value == v)) := by
  induction ds using List.reverseRecOn with
  | nil => rfl
  | append_singleton ds d ih =>
    have hconcat : ∀ ds : List Scope, mergeSiblings (ds ++ [d]) = absorbInto d (mergeSiblings ds) :=
      fun ds => by rw [mergeSiblings, List.foldl_append]; rfl
    rw [hconcat]
    by_cases hd : d.value = v
    · subst hd
      rw [filter_absorbInto_self, ih, List.filter_append, List.filter_singleton, beq_self_eq_true,
        cond_true, hconcat]
    · rw [filter_absorbInto_of_ne hd, ih, List.filter_append, List.filter_singleton,
        beq_false_of_ne hd, cond_false, List.append_nil]

/-- What merging makes of the occurrences of one value does not depend on the other scopes. -/
theorem filter_normalize (ds : List Scope) (v : String) :
    (normalize ds).filter (·.value == v) = normalize (ds.filter (·.value == v)) := by
  have hvalue : ((·.value == v) ∘ Merged.settled) = fun m : Merged => m.scope.value == v :=
    funext fun m => by rw [Function.comp_apply, m.value_settled]
  rw [normalize, normalize, settle_eq, settle_eq, List.filter_map, hvalue, filter_mergeSiblings]

theorem normalize_nil : normalize [] = [] :=
  normalize_of_nodup List.nodup_nil

theorem foldl_absorbInto_of_value {ds : List Scope} {m : Merged}
    (hds : ∀ d ∈ ds, d.value = m.scope.value) :
    ds.foldl (fun merged s => absorbInto s merged) [m] = [ds.foldl Merged.absorb m] := by
  induction ds generalizing m with
  | nil => rfl
  | cons d ds ih =>
    obtain ⟨hd, hds⟩ := List.forall_mem_cons.1 hds
    have habsorb : absorbInto d [m] = [m.absorb d] := by
      rw [absorbInto, hd, beq_self_eq_true, if_pos rfl]
    rw [List.foldl_cons, habsorb, List.foldl_cons]
    exact ih hds

theorem foldl_absorb (ds : List Scope) (m : Merged) :
    ds.foldl Merged.absorb m =
      ⟨mk m.scope.value (m.scope.optional && ds.all optional)
          (m.scope.dependencies ++ ds.flatMap dependencies),
        m.grown || ds.any fun d => !d.dependencies.isEmpty⟩ := by
  induction ds generalizing m with
  | nil => simp
  | cons d ds ih => simp [ih, Merged.absorb, Bool.and_assoc, Bool.or_assoc]

/-- Scopes with one value are merged into one scope. It is optional if all of them are, and its
dependencies are theirs, merged in their turn. -/
theorem normalize_of_value {v : String} {ds : List Scope} (hne : ds ≠ [])
    (hvalue : ∀ d ∈ ds, d.value = v) (hds : ∀ d ∈ ds, d.Tidy) :
    normalize ds = [mk v (ds.all optional) (normalize (ds.flatMap dependencies))] := by
  obtain ⟨d, rest, rfl⟩ := List.exists_cons_of_ne_nil hne
  obtain ⟨hd, hrest⟩ := List.forall_mem_cons.1 hvalue
  have hmerge : mergeSiblings (d :: rest) = [rest.foldl Merged.absorb (.ofScope d)] :=
    foldl_absorbInto_of_value fun e he => (hrest e he).trans hd.symm
  rw [normalize, hmerge, settle_eq, List.map_singleton, foldl_absorb, Merged.settled]
  split
  · simp [setDependencies, Merged.ofScope, hd]
  · -- nothing was taken in, so the dependencies are those of the first scope alone
    rename_i hgrown
    have hempty : ∀ e ∈ rest, e.dependencies = [] := by
      simpa [Merged.ofScope] using hgrown
    have hnone : rest.flatMap dependencies = [] := List.flatMap_eq_nil_iff.2 hempty
    have hnodup : (d.dependencies.map value).Nodup := (tidy_iff.1 (hds d (List.mem_cons_self ..))).1
    simp [Merged.ofScope, hd, hnone, normalize_of_nodup hnodup]

theorem value_of_mem_filter {ds : List Scope} {v : String} {d : Scope}
    (hd : d ∈ ds.filter (·.value == v)) : d.value = v := by
  simpa using (List.mem_filter.1 hd).2

/-- What lies below a value after merging is what lay below its occurrences, merged. -/
theorem flatMap_dependencies_normalize {ds : List Scope} (hds : ∀ d ∈ ds, d.Tidy) (v : String) :
    ((normalize ds).filter (·.value == v)).flatMap dependencies =
      normalize ((ds.filter (·.value == v)).flatMap dependencies) := by
  rw [filter_normalize]
  by_cases hnone : ds.filter (·.value == v) = []
  · rw [hnone, normalize_nil, List.flatMap_nil, normalize_nil]
  · have htidy : ∀ d ∈ ds.filter (·.value == v), d.Tidy :=
      fun d hd => hds d (List.mem_filter.1 hd).1
    rw [normalize_of_value hnone (fun _ => value_of_mem_filter) htidy, List.flatMap_singleton,
      dependencies_mk]

/-! ## Written trees -/

/-- The tree with the repeated siblings merged in each list, from the inside out. -/
def collapse : Scope → Scope :=
  regroup normalize

theorem collapse_mk (v : String) (o : Bool) (ds : List Scope) :
    (mk v o ds).collapse = mk v o (normalize (ds.map collapse)) :=
  regroup_mk normalize v o ds

/-- Merging what stands in the brackets of a scope collapses it, once its dependencies are. -/
theorem setDependencies_normalize (v : String) (o : Bool) (ds : List Scope) :
    (leaf v o).setDependencies (normalize (ds.map collapse)) = (mk v o ds).collapse := by
  rw [collapse_mk]
  rfl

theorem collapse_leaf (v : String) (o : Bool) : (leaf v o).collapse = leaf v o := by
  rw [leaf, collapse_mk, List.map_nil, normalize_of_nodup (by simp)]

theorem chain_map_collapse (ds : List Scope) (p : List String) :
    Chain (ds.map collapse) p ↔ Chain ds p :=
  chain_map_regroup chain_normalize ds p

theorem chain_collapse {s : Scope} {p : List String} : Chain [s.collapse] p ↔ Chain [s] p :=
  chain_map_collapse [s] p

theorem clear_map_collapse {owners : List String} {ds : List Scope} :
    Clear owners (ds.map collapse) ↔ Clear owners ds :=
  forall_congr' fun p => imp_congr_left (chain_map_collapse ds p)

theorem tidy_collapse (s : Scope) : s.collapse.Tidy := by
  induction s with
  | mk v o ds ih =>
    rw [tidy_iff, collapse_mk, dependencies_mk]
    refine tidyList_normalize fun d hd => ?_
    obtain ⟨e, he, rfl⟩ := List.mem_map.1 hd
    exact ih e he

theorem collapse_of_tidy {s : Scope} (h : s.Tidy) : s.collapse = s := by
  induction s with
  | mk v o ds ih =>
    have hmap : ds.map collapse = ds := by
      rw [List.map_congr_left (g := id) fun d hd => ih d hd (h.of_mem hd), List.map_id]
    have hnodup : (ds.map value).Nodup := (tidy_iff.1 h).1
    rw [collapse_mk, hmap, normalize_of_nodup hnodup]

end ScopeGrant.Scope
