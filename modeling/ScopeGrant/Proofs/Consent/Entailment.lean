import ScopeGrant.Proofs.Consent.Building
import ScopeGrant.Proofs.Consent.Matching
import ScopeGrant.Proofs.Scope.Containment
import ScopeGrant.Proofs.Scope.Reachable
import Mathlib.Data.List.Dedup
import Mathlib.Data.List.Infix

/-!
# Containment is entailment between requirements

Where a tree meets a scope, it meets all that the scope contains: the consents that answer the held
scope answer the required one as well (`MeetsAt.of_satisfies`). For the converse there is a tree
that grants a scope and nothing more. It has one consent for each chain of the scope, and its paths
are those of the chains, so it meets exactly those scopes whose chains are all chains of the scope
(`exists_tree_meets_iff`). Where siblings differ, this is containment.
-/

namespace ScopeGrant

namespace ConsentTree

/-! ## From containment to trees -/

/-- Where a scope is met, so is what it contains. -/
theorem MeetsAt.of_satisfies {t : ConsentTree} {held required : Scope} {c : Consent}
    (h : t.MeetsAt c held) (hsat : held.satisfies required = true) : t.MeetsAt c required := by
  induction required generalizing held c with
  | mk v o ds ih =>
    obtain ⟨hcarried, hmet⟩ := meetsAt_iff.1 h
    obtain ⟨hvalue, hbelow⟩ := Scope.satisfies_iff.1 hsat
    refine meetsAt_iff.2 ⟨hcarried.trans hvalue, fun d hd => ?_⟩
    obtain ⟨e, he, hed⟩ := hbelow d hd
    obtain ⟨k, hchild, hk⟩ := hmet e (Scope.exists_of_dependency? he).1
    exact ⟨k, hchild, ih d hd hk hed⟩

end ConsentTree

namespace Scope

/-! ## A tree that grants just one scope -/

/-- The identifier of the consent for a chain. -/
def number (s : Scope) (p : List String) : ConsentId :=
  UInt64.ofNat (s.chains.idxOf p)

/-- The consent for a chain: it carries the last value, and its path leads along the chain. -/
def grant (s : Scope) (p : List String) : Consent where
  id := s.number p
  client := ""
  scopeValue := p.getLast?.getD ""
  path := p.inits.tail.map s.number

/-- The consents for the chains of the scope. -/
def grants (s : Scope) : List Consent :=
  s.chains.dedup.map s.grant

section Grant

variable {s : Scope} {p q : List String} {v : String} {c : Consent}

theorem path_grant_concat :
    (s.grant (p ++ [v])).path = (s.grant p).path ++ [s.number (p ++ [v])] := by
  have hne : p.inits ≠ [] := List.ne_nil_of_mem ((List.mem_inits p p).2 (List.prefix_refl p))
  simp [grant, List.inits_append, List.tail_append_of_ne_nil hne]

theorem scopeValue_grant_concat : (s.grant (p ++ [v])).scopeValue = v := by
  simp [grant]

theorem mem_grants_iff : c ∈ s.grants ↔ ∃ p ∈ s.chains, c = s.grant p := by
  simp [grants, eq_comm]

theorem exists_of_mem_path {id : ConsentId} (h : id ∈ (s.grant p).path) :
    ∃ q, q <+: p ∧ q ≠ [] ∧ id = s.number q := by
  induction p using List.reverseRecOn with
  | nil => simp [grant] at h
  | append_singleton p v ih =>
    rw [path_grant_concat, List.mem_append, List.mem_singleton] at h
    rcases h with h | rfl
    · obtain ⟨q, hq, hne, hid⟩ := ih h
      exact ⟨q, hq.trans (List.prefix_append p [v]), hne, hid⟩
    · exact ⟨p ++ [v], List.prefix_refl _, by simp, rfl⟩

/-- The identifiers suffice if the scope is not too large. -/
theorem number_inj (hsize : s.size ≤ 2 ^ 64) (hp : p ∈ s.chains) (hq : q ∈ s.chains)
    (h : s.number p = s.number q) : p = q := by
  have hlt : ∀ r ∈ s.chains, s.chains.idxOf r < UInt64.size := by
    intro r hr
    have hr := List.idxOf_lt_length_of_mem hr
    rw [length_chains] at hr
    exact Nat.lt_of_lt_of_le hr hsize
  have hplace := congrArg UInt64.toNat h
  rw [number, number, UInt64.toNat_ofNat_of_lt' (hlt p hp),
    UInt64.toNat_ofNat_of_lt' (hlt q hq)] at hplace
  exact (List.idxOf_inj hp).1 hplace

theorem mem_chains_of_beginning (hp : p ∈ s.chains) (hq : q <+: p) (hne : q ≠ []) : q ∈ s.chains := by
  obtain ⟨rest, rfl⟩ := hq
  exact mem_chains_iff.2 ⟨hne, (mem_chains_iff.1 hp).2.of_append⟩

theorem nodup_path_grant (hsize : s.size ≤ 2 ^ 64) (hp : p ∈ s.chains) :
    (s.grant p).path.Nodup := by
  induction p using List.reverseRecOn with
  | nil => exact absurd rfl (mem_chains_iff.1 hp).1
  | append_singleton p v ih =>
    have hpath : (s.grant p).path.Nodup := by
      by_cases hnil : p = []
      · rw [hnil]
        exact List.nodup_nil
      · exact ih (mem_chains_of_beginning hp (List.prefix_append p [v]) hnil)
    rw [path_grant_concat, ← List.concat_eq_append]
    refine hpath.concat fun hmem => ?_
    -- the chain is longer than those whose consents come before it in the path
    obtain ⟨q, hq, hne, hid⟩ := exists_of_mem_path hmem
    have hqp : q <+: p ++ [v] := hq.trans (List.prefix_append p [v])
    have heq := number_inj hsize hp (mem_chains_of_beginning hp hqp hne) hid
    have hlength := hq.length_le
    rw [← heq, List.length_append, List.length_singleton] at hlength
    omega

theorem coherent_grants (hsize : s.size ≤ 2 ^ 64) : Coherent s.grants := by
  constructor
  · intro c hc
    obtain ⟨p, hp, rfl⟩ := mem_grants_iff.1 hc
    have hends : (s.grant p).path.getLast? = some (s.grant p).id := by
      rcases List.eq_nil_or_concat' p with rfl | ⟨q, v, rfl⟩
      · exact absurd rfl (mem_chains_iff.1 hp).1
      · rw [path_grant_concat, List.getLast?_append]
        rfl
    refine ⟨fun hnil => ?_, hends, nodup_path_grant hsize hp⟩
    rw [hnil] at hends
    cases hends
  · rw [grants, List.map_map]
    refine (List.nodup_dedup _).map_on fun p hp q hq hid => ?_
    exact number_inj hsize (List.mem_dedup.1 hp) (List.mem_dedup.1 hq) hid
  · intro c hc above parentId last hpath
    obtain ⟨p, hp, rfl⟩ := mem_grants_iff.1 hc
    rcases List.eq_nil_or_concat' p with rfl | ⟨q, v, rfl⟩
    · exact absurd rfl (mem_chains_iff.1 hp).1
    · rw [path_grant_concat, List.append_cons above] at hpath
      have habove : (s.grant q).path = above ++ [parentId] := (List.append_inj' hpath rfl).1
      rcases List.eq_nil_or_concat' q with rfl | ⟨r, w, rfl⟩
      · exact absurd habove (by simp [grant])
      · have hq := mem_chains_of_beginning hp (List.prefix_append (r ++ [w]) [v]) (by simp)
        refine ⟨_, mem_grants_iff.2 ⟨_, hq, rfl⟩, ?_, habove⟩
        rw [path_grant_concat] at habove
        exact List.singleton_inj.1 (List.append_inj' habove rfl).2

theorem rootId_grant (hp : p ∈ s.chains) : (s.grant p).rootId? = some (s.number [s.value]) := by
  obtain ⟨hne, hchain⟩ := mem_chains_iff.1 hp
  obtain ⟨v, q, rfl⟩ := List.exists_cons_of_ne_nil hne
  obtain ⟨rfl, -⟩ := chain_singleton.1 hchain
  cases q <;> simp [Consent.rootId?, grant]

theorem exists_ofList_grants (hsize : s.size ≤ 2 ^ 64) :
    ∃ t, ConsentTree.ofList (s.number [s.value]) s.grants = .ok t := by
  refine ConsentTree.exists_ofList_eq_ok (coherent_grants hsize) (fun c hc => ?_) ?_
  · obtain ⟨p, hp, rfl⟩ := mem_grants_iff.1 hc
    exact rootId_grant hp
  · exact List.ne_nil_of_mem (mem_grants_iff.2 ⟨_, s.singleton_mem_chains, rfl⟩)

/-- Above the consent for a chain of more than one value stands the one for the chain without the
last of them. -/
theorem parentId?_grant_concat :
    (s.grant (p ++ [v])).parentId? = if p = [] then none else some (s.number p) := by
  rw [Consent.parentId?, path_grant_concat, List.dropLast_concat]
  rcases List.eq_nil_or_concat' p with rfl | ⟨q, w, rfl⟩
  · rfl
  · rw [path_grant_concat, List.getLast?_concat, if_neg (by simp)]

variable {t : ConsentTree}

theorem isChild_grant_iff (h : t.Holds s.grants) (hsize : s.size ≤ 2 ^ 64) (hp : p ∈ s.chains) :
    t.IsChild (s.grant p) c ↔ ∃ v, p ++ [v] ∈ s.chains ∧ c = s.grant (p ++ [v]) := by
  have hget : t.get? c.id = some c ↔ ∃ q ∈ s.chains, c = s.grant q := by
    rw [← mem_grants_iff]
    exact (h.stored c.id c).trans (and_iff_left rfl)
  rw [ConsentTree.IsChild, hget]
  constructor
  · rintro ⟨⟨q, hq, rfl⟩, hparent⟩
    rcases List.eq_nil_or_concat' q with rfl | ⟨r, v, rfl⟩
    · exact absurd rfl (mem_chains_iff.1 hq).1
    · rw [parentId?_grant_concat] at hparent
      split at hparent
      · cases hparent
      rename_i hne
      have hr := mem_chains_of_beginning hq (List.prefix_append r [v]) hne
      obtain rfl := number_inj hsize hr hp (Option.some.inj hparent)
      exact ⟨v, hq, rfl⟩
  · rintro ⟨v, hv, rfl⟩
    refine ⟨⟨_, hv, rfl⟩, ?_⟩
    rw [parentId?_grant_concat, if_neg (mem_chains_iff.1 hp).1]
    rfl

/-- At the consent for a chain those scopes are met that continue it to chains of the scope. -/
theorem meetsAt_grant_iff (h : t.Holds s.grants) (hsize : s.size ≤ 2 ^ 64)
    (hp : p ++ [v] ∈ s.chains) {required : Scope} :
    t.MeetsAt (s.grant (p ++ [v])) required ↔
      v = required.value ∧ ∀ q, Chain [required] q → Chain [s] (p ++ q) := by
  induction required generalizing p v with
  | mk w o ds ih =>
    -- a dependency is met at a child exactly if its chains continue the chain of the consent
    have hbelow : ∀ d ∈ ds, (∃ k, t.IsChild (s.grant (p ++ [v])) k ∧ t.MeetsAt k d) ↔
        ∀ q, Chain [d] q → Chain [s] (p ++ [v] ++ q) := by
      intro d hd
      constructor
      · rintro ⟨k, hchild, hk⟩
        obtain ⟨x, hx, rfl⟩ := (isChild_grant_iff h hsize hp).1 hchild
        exact ((ih d hd hx).1 hk).2
      · intro hchain
        have hx : p ++ [v] ++ [d.value] ∈ s.chains :=
          mem_chains_iff.2 ⟨by simp, hchain _ (chain_nil _).up⟩
        exact ⟨_, (isChild_grant_iff h hsize hp).2 ⟨_, hx, rfl⟩, (ih d hd hx).2 ⟨rfl, hchain⟩⟩
    rw [ConsentTree.meetsAt_iff, scopeValue_grant_concat, value_mk, dependencies_mk]
    refine and_congr_right fun hv => ?_
    subst hv
    rw [forall₂_congr hbelow]
    constructor
    · intro hall q hq
      cases q with
      | nil => simpa using (mem_chains_iff.1 hp).2.of_append
      | cons x q =>
        obtain ⟨rfl, hrest⟩ := chain_singleton.1 hq
        rw [List.append_cons]
        by_cases hnil : q = []
        · rw [hnil, List.append_nil]
          exact (mem_chains_iff.1 hp).2
        · obtain ⟨d, hd, hdq⟩ := exists_chain_singleton hrest hnil
          exact hall d hd q hdq
    · intro hall d hd q hq
      rw [← List.append_cons]
      exact hall _ (chain_singleton.2 ⟨rfl, hq.of_mem hd⟩)

end Grant

end Scope

/-- There is a tree that meets exactly those scopes whose chains are all chains of `held`. -/
theorem exists_tree_meets_iff {held : Scope} (hsize : held.size ≤ 2 ^ 64) :
    ∃ rootId consents t, ConsentTree.ofList rootId consents = .ok t ∧ ∀ required : Scope,
      t.meets required = true ↔ ∀ p, Scope.Chain [required] p → Scope.Chain [held] p := by
  obtain ⟨t, ht⟩ := Scope.exists_ofList_grants hsize
  have hholds := ConsentTree.holds_of_ofList ht
  have hmem := held.singleton_mem_chains
  have hroot : t.root = held.grant [held.value] := by
    have hget := hholds.root
    rw [ConsentTree.rootId_of_ofList ht] at hget
    have hstored := (hholds.stored _ _).2 ⟨Scope.mem_grants_iff.2 ⟨_, hmem, rfl⟩, rfl⟩
    exact Option.some.inj (hget.symm.trans hstored)
  refine ⟨_, _, t, ht, fun required => ?_⟩
  rw [hholds.meets_iff, hroot, ← List.nil_append [held.value],
    Scope.meetsAt_grant_iff (p := []) hholds hsize hmem]
  -- the chain that is the value of the required scope alone says that the values agree
  refine ⟨And.right, fun hchain => ⟨?_, hchain⟩⟩
  exact (Scope.chain_singleton.1 (hchain _ (Scope.chain_nil _).up)).1

/-- One scope contains another exactly if every tree that meets the first meets the second. To find
a tree that tells them apart otherwise, there must be an identifier for each scope in the first. -/
theorem satisfies_iff_entails (held required : Scope) (hheld : held.Reachable) :
    (held.satisfies required = true →
      ∀ rootId consents t, ConsentTree.ofList rootId consents = .ok t →
        t.meets held = true → t.meets required = true) ∧
    (held.size ≤ 2 ^ 64 →
      (∀ rootId consents t, ConsentTree.ofList rootId consents = .ok t →
        t.meets held = true → t.meets required = true) →
      held.satisfies required = true) := by
  constructor
  · intro hsat rootId consents t ht hmeets
    have hholds := ConsentTree.holds_of_ofList ht
    exact hholds.meets_iff.2 ((hholds.meets_iff.1 hmeets).of_satisfies hsat)
  · intro hsize hentails
    obtain ⟨rootId, consents, t, ht, hmeets⟩ := exists_tree_meets_iff hsize
    rw [Scope.satisfies_iff_chain hheld.wellFormed.tidy, ← hmeets]
    exact hentails rootId consents t ht ((hmeets held).2 fun _ hp => hp)

def twoBranches : Scope :=
  .mk "a" false [.mk "b" false [.leaf "c" false], .leaf "d" false]

def upperBranch : Scope :=
  .mk "a" false [.leaf "b" false]

/-- The two ends of one of its branches, without what lies between. -/
def brokenBranch : Scope :=
  .mk "a" false [.leaf "c" false]

/-- A scope with two branches contains each of them, and a scope that is not one of its branches is
told apart by a tree. -/
theorem satisfies_iff_entails_of_two_branches :
    twoBranches.Reachable ∧
    (∀ rootId consents t, ConsentTree.ofList rootId consents = .ok t →
      t.meets twoBranches = true → t.meets upperBranch = true) ∧
    twoBranches.satisfies upperBranch = true ∧
    ∃ rootId consents t, ConsentTree.ofList rootId consents = .ok t ∧
      t.meets twoBranches = true ∧ ¬ t.meets brokenBranch = true := by
  have hparse : Scope.parse "a[b[c] d]" = .ok [twoBranches] := by cbv
  have hheld := Scope.Reachable.parse hparse (List.mem_singleton_self _)
  have hsize : twoBranches.size ≤ 2 ^ 64 := by decide
  have hsat : twoBranches.satisfies upperBranch = true := by decide +kernel
  have hnot : twoBranches.satisfies brokenBranch = false := by decide +kernel
  have hentails := (satisfies_iff_entails _ _ hheld).1 hsat
  refine ⟨hheld, hentails, (satisfies_iff_entails _ _ hheld).2 hsize hentails, ?_⟩
  have hdiffer : ¬ ∀ rootId consents t, ConsentTree.ofList rootId consents = .ok t →
      t.meets twoBranches = true → t.meets brokenBranch = true := by
    intro h
    rw [(satisfies_iff_entails _ _ hheld).2 hsize h] at hnot
    cases hnot
  push Not at hdiffer
  simpa only [Bool.not_eq_true] using hdiffer

end ScopeGrant
