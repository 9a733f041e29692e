import ScopeGrant.Consent.Forest
import ScopeGrant.Proofs.Consent.Tree

/-!
# Matching is a structural recursion

The matcher lays a required scope out in an array and settles it from the last place to the first.
While scopes are laid out, every place that is taken belongs to one scope of the required tree, and
the places noted there belong to its dependencies and come later; a dependency that is not noted yet
is still pending (`Laid`). So when a place is settled, its dependencies are, and the consents found
for it are those at which its scope is met as the paths of the consents say (`MeetsAt`).
-/

namespace ScopeGrant

open Std (ExtTreeMap)

namespace Need

/-! ## The layout -/

theorem size_note (place : Nat) (owner : Option Nat) (order : Array Need) :
    (note place owner order).size = order.size := by
  cases owner with
  | none => rfl
  | some i => exact Array.size_modify

theorem getElem?_note (place : Nat) (owner : Option Nat) (order : Array Need) (p : Nat) :
    (note place owner order)[p]? =
      if owner = some p then
        order[p]?.map fun n => { n with dependencies := n.dependencies.push place }
      else order[p]? := by
  cases owner with
  | none => rfl
  | some i =>
    rw [note, Array.getElem?_modify]
    simp only [Option.some.injEq]

/-- What the layout says at the place `p` of the scope `s`, if `scopes` are the scopes by place. -/
structure Entry (scopes : List Scope) (pending : List (Scope × Option Nat)) (p : Nat) (n : Need)
    (s : Scope) : Prop where
  value : n.value = s.value
  below : ∀ q ∈ n.dependencies, p < q ∧ ∃ d ∈ s.dependencies, scopes[q]? = some d
  covered : ∀ d ∈ s.dependencies,
    (d, some p) ∈ pending ∨ ∃ q ∈ n.dependencies, scopes[q]? = some d

/-- The layout holds the scopes of the list at its places, but for what is pending. -/
structure Laid (order : Array Need) (scopes : List Scope) (pending : List (Scope × Option Nat)) :
    Prop where
  size : order.size = scopes.length
  entry : ∀ p n s, order[p]? = some n → scopes[p]? = some s → Entry scopes pending p n s
  owned : ∀ d p, (d, some p) ∈ pending → ∃ s, scopes[p]? = some s ∧ d ∈ s.dependencies

/-- A place that is taken stays as it is when the scope `s` is laid out behind it, but that `s` may
be noted there. -/
theorem Entry.grow {scopes : List Scope} {pending new : List (Scope × Option Nat)} {p : Nat}
    {n : Need} {s' s : Scope} {owner : Option Nat}
    (h : Entry scopes ((s, owner) :: pending) p n s') (hp : p < scopes.length)
    (howned : owner = some p → s ∈ s'.dependencies) :
    Entry (scopes ++ [s]) (new ++ pending) p
      (if owner = some p then { n with dependencies := n.dependencies.push scopes.length } else n)
      s' := by
  have hold : ∀ {q : Nat} {d : Scope}, scopes[q]? = some d → (scopes ++ [s])[q]? = some d := by
    intro q d hq
    rw [List.getElem?_append_left (List.getElem?_eq_some_iff.1 hq).1, hq]
  have hlast : (scopes ++ [s])[scopes.length]? = some s := by
    rw [List.getElem?_append_right (Nat.le_refl _), Nat.sub_self]
    rfl
  have hbelow : ∀ q ∈ n.dependencies,
      p < q ∧ ∃ d ∈ s'.dependencies, (scopes ++ [s])[q]? = some d := by
    intro q hq
    obtain ⟨hlt, d, hd, hplace⟩ := h.below q hq
    exact ⟨hlt, d, hd, hold hplace⟩
  have hcovered : ∀ d ∈ s'.dependencies, (d = s ∧ owner = some p) ∨ (d, some p) ∈ new ++ pending ∨
      ∃ q ∈ n.dependencies, (scopes ++ [s])[q]? = some d := by
    intro d hd
    rcases h.covered d hd with hpending | ⟨q, hq, hplace⟩
    · rcases List.mem_cons.1 hpending with heq | hpending
      · exact Or.inl ⟨congrArg Prod.fst heq, (congrArg Prod.snd heq).symm⟩
      · exact Or.inr (Or.inl (List.mem_append_right _ hpending))
    · exact Or.inr (Or.inr ⟨q, hq, hold hplace⟩)
  by_cases howner : owner = some p
  · rw [if_pos howner]
    refine ⟨h.value, fun q hq => ?_, fun d hd => ?_⟩
    · rcases Array.mem_push.1 hq with hq | rfl
      · exact hbelow q hq
      · exact ⟨hp, s, howned howner, hlast⟩
    · -- the dependency that was pending for this place is the one that has just been noted
      rcases hcovered d hd with ⟨rfl, -⟩ | hpending | ⟨q, hq, hplace⟩
      · exact Or.inr ⟨_, Array.mem_push_self, hlast⟩
      · exact Or.inl hpending
      · exact Or.inr ⟨q, Array.mem_push_of_mem _ hq, hplace⟩
  · rw [if_neg howner]
    refine ⟨h.value, hbelow, fun d hd => ?_⟩
    rcases hcovered d hd with ⟨-, hnot⟩ | hrest
    · exact absurd hnot howner
    · exact hrest

/-- Laying out one scope. -/
theorem Laid.step {order : Array Need} {scopes : List Scope} {s : Scope} {owner : Option Nat}
    {pending : List (Scope × Option Nat)} (h : Laid order scopes ((s, owner) :: pending)) :
    Laid ((note order.size owner order).push ⟨s.value, #[]⟩) (scopes ++ [s])
      (s.dependencies.reverse.map (·, some order.size) ++ pending) := by
  have hlast : (scopes ++ [s])[order.size]? = some s := by
    rw [h.size, List.getElem?_append_right (Nat.le_refl _), Nat.sub_self]
    rfl
  refine ⟨?_, fun p n s' hn hs' => ?_, fun d p hd => ?_⟩
  · rw [Array.size_push, size_note, List.length_append, h.size]
    rfl
  · rw [Array.getElem?_push, size_note] at hn
    by_cases hp : p = order.size
    · -- the new place itself: nothing is noted yet, and all its dependencies are pending
      subst hp
      rw [if_pos rfl, Option.some.injEq] at hn
      rw [hlast, Option.some.injEq] at hs'
      subst hn hs'
      refine ⟨rfl, fun q hq => absurd hq (Array.not_mem_empty q), fun d hd => Or.inl ?_⟩
      exact List.mem_append_left _ (List.mem_map.2 ⟨d, List.mem_reverse.2 hd, rfl⟩)
    · rw [if_neg hp, getElem?_note] at hn
      have hlt : p < scopes.length := by
        have := (List.getElem?_eq_some_iff.1 hs').1
        rw [List.length_append, List.length_singleton] at this
        have := h.size
        omega
      rw [List.getElem?_append_left hlt] at hs'
      obtain ⟨n', hn', rfl⟩ : ∃ n', order[p]? = some n' ∧ n = if owner = some p then
          { n' with dependencies := n'.dependencies.push order.size } else n' := by
        by_cases howner : owner = some p
        · rw [if_pos howner, Option.map_eq_some_iff] at hn
          obtain ⟨n', hn', rfl⟩ := hn
          exact ⟨n', hn', by rw [if_pos howner]⟩
        · rw [if_neg howner] at hn
          exact ⟨n, hn, by rw [if_neg howner]⟩
      rw [h.size]
      refine (h.entry p n' s' hn' hs').grow hlt fun howner => ?_
      obtain ⟨s'', hs'', hmem⟩ := h.owned s p (howner ▸ List.mem_cons_self ..)
      rwa [← Option.some.inj (hs'.symm.trans hs'')] at hmem
  · rcases List.mem_append.1 hd with hd | hd
    · obtain ⟨d', hd', heq⟩ := List.mem_map.1 hd
      cases heq
      exact ⟨s, hlast, List.mem_reverse.1 hd'⟩
    · obtain ⟨s', hs', hmem⟩ := h.owned d p (List.mem_cons_of_mem _ hd)
      refine ⟨s', ?_, hmem⟩
      rw [List.getElem?_append_left (List.getElem?_eq_some_iff.1 hs').1, hs']

theorem Laid.loop {order : Array Need} {scopes : List Scope}
    {pending : List (Scope × Option Nat)} (h : Laid order scopes pending) :
    ∃ more, Laid (layoutLoop order pending) (scopes ++ more) [] := by
  fun_induction layoutLoop order pending generalizing scopes with
  | case1 order => exact ⟨[], by rwa [List.append_nil]⟩
  | case2 order s owner pending place =>
    rename_i ih
    obtain ⟨more, hmore⟩ := ih h.step
    exact ⟨s :: more, by rwa [List.append_cons]⟩

/-- A required scope has the first place of its layout. -/
theorem exists_laid (s : Scope) : ∃ below, Laid (layout s) (s :: below) [] := by
  have hstart : Laid #[] [] [(s, none)] := by
    refine ⟨rfl, fun p n s' hn => ?_, fun d p hd => ?_⟩
    · simp at hn
    · simp at hd
  rw [layout, layoutLoop]
  exact hstart.step.loop

end Need

namespace ConsentTree

/-! ## What is met where -/

/-- The consent carries the value of the scope and has, for each of its dependencies, a child at
which this one is met. -/
def MeetsAt (t : ConsentTree) : Consent → Scope → Prop
  | c, .mk v _ ds => c.scopeValue = v ∧ ∀ d ∈ ds, ∃ k, t.IsChild c k ∧ t.MeetsAt k d

theorem meetsAt_iff {t : ConsentTree} {c : Consent} {s : Scope} :
    t.MeetsAt c s ↔
      c.scopeValue = s.value ∧ ∀ d ∈ s.dependencies, ∃ k, t.IsChild c k ∧ t.MeetsAt k d := by
  cases s with
  | mk v o ds => rw [MeetsAt]; rfl

/-! ## Carriers -/

theorem mem_foldl_carriers {entries : List (ConsentId × Consent)} {id : ConsentId} {v : String}
    (found : ExtTreeMap String (List ConsentId)) :
    id ∈ (entries.foldl (fun found (id, c) =>
        found.insert c.scopeValue (id :: found.getD c.scopeValue [])) found).getD v [] ↔
      id ∈ found.getD v [] ∨ ∃ c, (id, c) ∈ entries ∧ c.scopeValue = v := by
  induction entries generalizing found with
  | nil => simp
  | cons entry entries ih =>
    obtain ⟨id', c'⟩ := entry
    have hcons : (∃ c, (id, c) ∈ (id', c') :: entries ∧ c.scopeValue = v) ↔
        (id = id' ∧ c'.scopeValue = v) ∨ ∃ c, (id, c) ∈ entries ∧ c.scopeValue = v := by
      simp only [List.mem_cons, Prod.mk.injEq, or_and_right, exists_or]
      refine or_congr_left ⟨?_, fun h => ⟨c', ⟨h.1, rfl⟩, h.2⟩⟩
      rintro ⟨c, ⟨hid, rfl⟩, hv⟩
      exact ⟨hid, hv⟩
    rw [List.foldl_cons, ih, hcons, ← or_assoc, ExtTreeMap.getD_insert]
    refine or_congr_left ?_
    by_cases hv : c'.scopeValue = v
    · subst hv
      simp [or_comm]
    · simp [hv]

theorem mem_carriers_iff {t : ConsentTree} {id : ConsentId} {v : String} :
    id ∈ t.carriers.getD v [] ↔ ∃ c, t.get? id = some c ∧ c.scopeValue = v := by
  simp [carriers, mem_foldl_carriers, get?, ExtTreeMap.mem_toList_iff_getElem?_eq_some]

/-! ## Settling -/

/-- From `place` on the lists hold the consents at which the scope of the place is met. -/
def Settled (t : ConsentTree) (scopes : List Scope) (met : Array (List ConsentId)) (place : Nat) :
    Prop :=
  ∀ p s, place ≤ p → scopes[p]? = some s →
    ∀ id, id ∈ met.getD p [] ↔ ∃ c, t.get? id = some c ∧ t.MeetsAt c s

section Settling

variable {t : ConsentTree} {consents : List Consent} {order : Array Need} {scopes : List Scope}
  {met : Array (List ConsentId)} {place : Nat}

theorem size_settleNeed : (t.settleNeed t.carriers order met place).size = met.size := by
  unfold settleNeed
  split
  · rfl
  · exact Array.size_setIfInBounds

/-- A child meets a scope whose place is settled exactly if the scope is met there. -/
theorem Settled.exists_child (h : t.Holds consents) (hmet : t.Settled scopes met place) {p : Nat}
    (hp : place ≤ p) {s : Scope} (hs : scopes[p]? = some s) {c : Consent} :
    (∃ k ∈ t.children c.id, k.id ∈ met.getD p []) ↔ ∃ k, t.IsChild c k ∧ t.MeetsAt k s := by
  refine exists_congr fun k => ?_
  rw [h.mem_children_iff, hmet p s hp hs]
  refine and_congr_right fun hk => ⟨?_, fun hmeets => ⟨k, hk.1, hmeets⟩⟩
  rintro ⟨k', hget, hmeets⟩
  rwa [← Option.some.inj (hk.1.symm.trans hget)] at hmeets

/-- Settling one place when all later ones are settled. -/
theorem Settled.step (h : t.Holds consents) (hlaid : Need.Laid order scopes [])
    (hsize : met.size = order.size) (hmet : t.Settled scopes met (place + 1)) :
    t.Settled scopes (t.settleNeed t.carriers order met place) place := by
  intro p s hp hs id
  have hlt : p < order.size := hlaid.size ▸ (List.getElem?_eq_some_iff.1 hs).1
  unfold settleNeed
  by_cases hplace : p = place
  · subst hplace
    have hn : order[p]? = some order[p] := Array.getElem?_eq_getElem hlt
    have hentry := hlaid.entry p _ s hn hs
    -- the places noted at `p` are settled, and they are those of the dependencies
    have hbelow : ∀ c, (∀ q ∈ order[p].dependencies,
          ∃ k ∈ t.children c.id, k.id ∈ met.getD q []) ↔
        ∀ d ∈ s.dependencies, ∃ k, t.IsChild c k ∧ t.MeetsAt k d := by
      intro c
      constructor
      · intro hall d hd
        rcases hentry.covered d hd with hpending | ⟨q, hq, hdq⟩
        · cases hpending
        · exact (hmet.exists_child h (hentry.below q hq).1 hdq).1 (hall q hq)
      · intro hall q hq
        obtain ⟨hpq, d, hd, hdq⟩ := hentry.below q hq
        exact (hmet.exists_child h hpq hdq).2 (hall d hd)
    have hset : ∀ ids, (met.setIfInBounds p ids).getD p [] = ids := by
      intro ids
      rw [Array.getD_eq_getD_getElem?, Array.getElem?_setIfInBounds_self_of_lt (hsize ▸ hlt)]
      rfl
    rw [hn, hset, List.mem_filter, mem_carriers_iff, ← exists_and_right]
    refine exists_congr fun c => ?_
    rw [meetsAt_iff, and_assoc, hentry.value]
    refine and_congr_right fun hget => and_congr_right fun _ => ?_
    obtain rfl : c.id = id := ((h.stored _ _).1 hget).2
    rw [← hbelow]
    simp only [Array.all_eq_true_iff_forall_mem, List.any_eq_true, List.contains_iff_mem]
  · have hrest := hmet p s (by omega) hs id
    split
    · exact hrest
    · rwa [Array.getD_eq_getD_getElem?, Array.getElem?_setIfInBounds_ne (Ne.symm hplace),
        ← Array.getD_eq_getD_getElem?]

theorem Settled.loop (h : t.Holds consents) (hlaid : Need.Laid order scopes [])
    (hsize : met.size = order.size) (hmet : t.Settled scopes met place) :
    t.Settled scopes (t.settleLoop t.carriers order place met) 0 := by
  induction place generalizing met with
  | zero => exact hmet
  | succ place ih =>
    rw [settleLoop]
    exact ih (size_settleNeed.trans hsize) (hmet.step h hlaid hsize)

/-- The matcher finds the consents at which the required scope is met. -/
theorem Holds.mem_matching_iff (h : t.Holds consents) {required : Scope} {id : ConsentId} :
    id ∈ (t.matching required).getD 0 [] ↔ ∃ c, t.get? id = some c ∧ t.MeetsAt c required := by
  obtain ⟨below, hlaid⟩ := Need.exists_laid required
  have hstart : t.Settled (required :: below)
      (.replicate (Need.layout required).size []) (Need.layout required).size := by
    intro p s hp hs
    have := (List.getElem?_eq_some_iff.1 hs).1
    have := hlaid.size
    omega
  exact hstart.loop h hlaid Array.size_replicate 0 required (Nat.le_refl _) rfl id

theorem Holds.meets_iff (h : t.Holds consents) {required : Scope} :
    t.meets required = true ↔ t.MeetsAt t.root required := by
  have hroot : t.rootId ∈ (t.matching required).getD 0 [] ↔ t.MeetsAt t.root required := by
    rw [h.mem_matching_iff, h.root]
    simp
  have hfirst : (t.matching required)[0]?.any (·.contains t.rootId) = true ↔
      t.rootId ∈ (t.matching required).getD 0 [] := by
    rw [Array.getD_eq_getD_getElem?]
    cases (t.matching required)[0]? with
    | none => simp
    | some ids => simp
  rw [meets, Bool.and_eq_true, beq_iff_eq, hfirst, hroot]
  exact ⟨And.right, fun hmet => ⟨(meetsAt_iff.1 hmet).1, hmet⟩⟩

end Settling

end ConsentTree

/-! ## Forests -/

namespace ConsentForest

/-- Each tree of a forest is built from the consents of its group. -/
theorem exists_holds_of_mem {consents : List Consent} {f : ConsentForest} {t : ConsentTree}
    (h : ofList consents = .ok f) (ht : t ∈ f.trees) : ∃ members, t.Holds members := by
  unfold ofList at h
  obtain ⟨_, -, h⟩ := bind_eq_ok_iff.1 h
  obtain ⟨_, -, h⟩ := bind_eq_ok_iff.1 h
  obtain ⟨trees, htrees, h⟩ := bind_eq_ok_iff.1 h
  cases h
  obtain ⟨⟨root, members⟩, -, hbuilt⟩ := exists_of_mem_mapM htrees ht
  exact ⟨members, ConsentTree.holds_of_ofList hbuilt⟩

theorem meets_iff {consents : List Consent} {f : ConsentForest} {s : Scope}
    (h : ofList consents = .ok f) : f.meets s = true ↔ ∃ t ∈ f.trees, t.MeetsAt t.root s := by
  rw [meets, List.any_eq_true]
  refine exists_congr fun t => and_congr_right fun ht => ?_
  obtain ⟨members, hmembers⟩ := exists_holds_of_mem h ht
  exact hmembers.meets_iff

end ConsentForest

/-- A forest that was built meets a scope exactly if the scope is met at the root of one of its
trees, and a tree that was built exactly if it is met at its root. A list of scopes is met exactly
if each of them is. -/
theorem meets_iff_meetsAt_root :
    (∀ consents f, ConsentForest.ofList consents = .ok f → ∀ required : Scope,
      f.meets required = true ↔ ∃ t ∈ f.trees, t.MeetsAt t.root required) ∧
    (∀ rootId consents t, ConsentTree.ofList rootId consents = .ok t → ∀ required : Scope,
      t.meets required = true ↔ t.MeetsAt t.root required) ∧
    ∀ (f : ConsentForest) (required : List Scope),
      f.meetsAll required = true ↔ ∀ r ∈ required, f.meets r = true := by
  refine ⟨fun _ _ hf _ => ConsentForest.meets_iff hf, fun _ _ _ ht _ => ?_, fun f required => ?_⟩
  · exact (ConsentTree.holds_of_ofList ht).meets_iff
  · rw [ConsentForest.meetsAll, List.all_eq_true]

/-- Two children of the root have the same value, and only the second one has a child. -/
def twinChildren : List Consent :=
  [{ id := 1, client := "app", scopeValue := "a", path := [1] },
    { id := 2, client := "app", scopeValue := "b", path := [1, 2] },
    { id := 3, client := "app", scopeValue := "b", path := [1, 3] },
    { id := 4, client := "app", scopeValue := "c", path := [1, 3, 4] }]

def throughSecondTwin : Scope :=
  .mk "a" false [.mk "b" false [.leaf "c" false]]

/-- Of two children with the same value only the second one has the child that is asked for. -/
theorem exists_meetsAt_root_of_second_child :
    ∃ f t, ConsentForest.ofList twinChildren = .ok f ∧
      ConsentTree.ofList 1 twinChildren = .ok t ∧
      (∃ t ∈ f.trees, t.MeetsAt t.root throughSecondTwin) ∧
      t.MeetsAt t.root throughSecondTwin ∧
      ¬ t.MeetsAt t.root (.mk "a" false [.leaf "c" false]) := by
  have hforest : (ConsentForest.ofList twinChildren).map (·.meets throughSecondTwin) =
      .ok true := by decide +kernel
  have htree : (ConsentTree.ofList 1 twinChildren).map
      (fun t => (t.meets throughSecondTwin, t.meets (.mk "a" false [.leaf "c" false]))) =
      .ok (true, false) := by decide +kernel
  obtain ⟨f, hf, hmeets⟩ := map_eq_ok_iff.1 hforest
  obtain ⟨t, ht, hpair⟩ := map_eq_ok_iff.1 htree
  obtain ⟨hyes, hno⟩ := Prod.mk.inj hpair
  have hat := meets_iff_meetsAt_root.2.1 _ _ t ht
  refine ⟨f, t, hf, ht, (meets_iff_meetsAt_root.1 _ f hf _).1 hmeets, (hat _).1 hyes, fun hmet => ?_⟩
  rw [(hat _).2 hmet] at hno
  cases hno

end ScopeGrant
