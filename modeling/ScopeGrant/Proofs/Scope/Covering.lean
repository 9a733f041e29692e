import ScopeGrant.Proofs.Scope.Canonical
import ScopeGrant.Proofs.Scope.Containment

/-!
# Containment is an order on scopes

What containment is meant to say is a plain recursion: the values agree, and each dependency of the
required scope is covered by some dependency of the held one (`Covers`). The loop looks one
dependency up under each value instead, which is right because siblings differ in their values.

Markers play no part in this. On the scopes that can be made, containment is reflexive and
transitive, and two scopes contain each other exactly if they are equal once every marker in them is
cleared (`unmarked`).
-/

namespace ScopeGrant.Scope

/-! ## The meaning of containment -/

/-- The values agree, and each dependency of the required scope is covered by some dependency of the
held one. -/
def Covers : Scope → Scope → Prop
  | held, mk v _ ds => held.value = v ∧ ∀ d ∈ ds, ∃ e ∈ held.dependencies, Covers e d

section Covers

variable {held required d e : Scope}

theorem covers_iff :
    held.Covers required ↔
      held.value = required.value ∧
        ∀ d ∈ required.dependencies, ∃ e ∈ held.dependencies, e.Covers d := by
  cases required with
  | mk v o ds => rw [Covers, value_mk, dependencies_mk]

theorem Covers.value_eq (h : held.Covers required) : held.value = required.value :=
  (covers_iff.1 h).1

/-- Where siblings differ, only the dependency with the value of the required one can cover it. -/
theorem Covers.of_mem (h : held.Covers required) (htidy : held.Tidy)
    (hd : d ∈ required.dependencies) (he : e ∈ held.dependencies) (hvalue : e.value = d.value) :
    e.Covers d := by
  obtain ⟨e', he', hcovers⟩ := (covers_iff.1 h).2 d hd
  have hsame : e'.value = e.value := hcovers.value_eq.trans hvalue.symm
  rwa [← List.inj_on_of_nodup_map (tidy_iff.1 htidy).1 he' he hsame]

theorem satisfies_iff_covers (h : held.Tidy) :
    held.satisfies required = true ↔ held.Covers required := by
  induction required generalizing held with
  | mk v o ds ih =>
    rw [satisfies_iff, covers_iff]
    refine and_congr_right fun _ => forall₂_congr fun d hd => ?_
    constructor
    · rintro ⟨e, hfound, hsat⟩
      have he := (exists_of_dependency? hfound).1
      exact ⟨e, he, (ih d hd (h.of_mem he)).1 hsat⟩
    · rintro ⟨e, he, hcovers⟩
      have hfound : held.dependency? d.value = some e := by
        rw [← hcovers.value_eq]
        exact dependency?_of_mem h he
      exact ⟨e, hfound, (ih d hd (h.of_mem he)).2 hcovers⟩

end Covers

/-! ## Clearing markers -/

/-- The tree with every optional marker cleared. -/
def unmarked : Scope → Scope
  | mk v _ ds => mk v false (ds.map unmarked)

theorem unmarked_eq (s : Scope) : s.unmarked = mk s.value false (s.dependencies.map unmarked) := by
  cases s with
  | mk v o ds => rw [unmarked, value_mk, dependencies_mk]

@[simp] theorem value_unmarked (s : Scope) : s.unmarked.value = s.value := by
  rw [unmarked_eq, value_mk]

@[simp] theorem optional_unmarked (s : Scope) : s.unmarked.optional = false := by
  rw [unmarked_eq, optional_mk]

@[simp] theorem dependencies_unmarked (s : Scope) :
    s.unmarked.dependencies = s.dependencies.map unmarked := by
  rw [unmarked_eq, dependencies_mk]

theorem chain_unmarked {s : Scope} {p : List String} : Chain [s.unmarked] p ↔ Chain [s] p :=
  chain_map value_unmarked (fun s q => by rw [dependencies_unmarked]) [s] p

theorem tidy_unmarked {s : Scope} (h : s.Tidy) : s.unmarked.Tidy :=
  tidy_map value_unmarked (fun s => .of_eq s.dependencies_unmarked) h

theorem dependency?_unmarked (s : Scope) (v : String) :
    s.unmarked.dependency? v = (s.dependency? v).map unmarked := by
  have hvalue : ((·.value == v) ∘ unmarked) = fun d : Scope => d.value == v :=
    funext fun d => by rw [Function.comp_apply, value_unmarked]
  rw [dependency?, dependencies_unmarked, List.find?_map, hvalue, dependency?]

/-- Containment does not look at markers. -/
theorem satisfies_unmarked (held required : Scope) :
    held.unmarked.satisfies required.unmarked = held.satisfies required := by
  induction required generalizing held with
  | mk v o ds ih =>
    have hbelow : ∀ d ∈ ds,
        (∃ e, held.unmarked.dependency? d.value = some e ∧ e.satisfies d.unmarked = true) ↔
          ∃ e, held.dependency? d.value = some e ∧ e.satisfies d = true := by
      intro d hd
      simp only [dependency?_unmarked, Option.map_eq_some_iff, exists_exists_and_eq_and, ih d hd]
    rw [Bool.eq_iff_iff, satisfies_iff, satisfies_iff]
    simp only [value_unmarked, dependencies_unmarked, List.forall_mem_map, value_mk,
      dependencies_mk]
    exact and_congr_right fun _ => forall₂_congr hbelow

/-- Whether one scope that can be made contains another one is what the recursion says, and it is to
say that every chain of values in the required scope is one of the held scope. Markers play no part:
other scopes that are the same once the markers are cleared give the same answer. -/
theorem satisfies_iff_covers_of_reachable (held required : Scope) (hheld : held.Reachable) :
    (held.satisfies required = true ↔ held.Covers required) ∧
    (held.Covers required ↔ ∀ p, Chain [required] p → Chain [held] p) ∧
    ∀ held' required' : Scope, held'.unmarked = held.unmarked →
      required'.unmarked = required.unmarked →
        held'.satisfies required' = held.satisfies required := by
  have htidy := hheld.wellFormed.tidy
  refine ⟨satisfies_iff_covers htidy, ?_, ?_⟩
  · rw [← satisfies_iff_covers htidy, satisfies_iff_chain htidy]
  · intro held' required' hsame hsame'
    rw [← satisfies_unmarked held', hsame, hsame', satisfies_unmarked]

def heldScope : Scope :=
  mk "a" false [mk "b" true [leaf "c" false], leaf "d" true]

/-- The same dependencies in another order, marked in another way. -/
def requiredScope : Scope :=
  mk "a" true [leaf "d" false, mk "b" false [leaf "c" true]]

def misplacedScope : Scope :=
  mk "a" false [leaf "c" false]

/-- Dependencies may be stored in any order and marked in any way. A scope that stands deeper in the
held one than it is required does not count. -/
theorem satisfies_iff_covers_of_read :
    heldScope.Reachable ∧
    heldScope.Covers requiredScope ∧
    (∀ p, Chain [requiredScope] p → Chain [heldScope] p) ∧
    ¬ heldScope.Covers misplacedScope := by
  have hread : Scope.parse "a[*b[c] *d]" = .ok [heldScope] := by cbv
  have hheld := Reachable.parse hread (List.mem_singleton_self _)
  have hsat : heldScope.satisfies requiredScope = true := by decide +kernel
  have hnot : heldScope.satisfies misplacedScope = false := by decide +kernel
  obtain ⟨hcovers, hchain, -⟩ := satisfies_iff_covers_of_reachable _ requiredScope hheld
  refine ⟨hheld, hcovers.1 hsat, hchain.1 (hcovers.1 hsat), fun h => ?_⟩
  have hdeep := (satisfies_iff_covers_of_reachable _ misplacedScope hheld).1.2 h
  rw [hnot] at hdeep
  cases hdeep

/-! ## The order -/

theorem alike_unmarked_of_covers {a b : Scope} (ha : a.Tidy) (hb : b.Tidy) (hab : a.Covers b)
    (hba : b.Covers a) : a.unmarked.Alike b.unmarked := by
  induction a generalizing b with
  | mk v o ds ih =>
    -- each of two dependencies with one value is the one that covers the other
    have hpair : ∀ d ∈ ds, ∀ e ∈ b.dependencies, d.value = e.value →
        d.unmarked.Alike e.unmarked := by
      intro d hd e he hvalue
      exact ih d hd (ha.of_mem hd) (hb.of_mem he) (hab.of_mem ha he hd hvalue)
        (hba.of_mem hb hd he hvalue.symm)
    rw [alike_iff]
    simp only [value_unmarked, optional_unmarked, dependencies_unmarked, List.forall_mem_map,
      true_and]
    refine ⟨hab.value_eq, fun d hd => ?_, fun e he => ?_⟩
    · obtain ⟨e, he, hcovers⟩ := (covers_iff.1 hba).2 d hd
      exact ⟨_, List.mem_map_of_mem he, hpair d hd e he hcovers.value_eq.symm⟩
    · obtain ⟨d, hd, hcovers⟩ := (covers_iff.1 hab).2 e he
      exact ⟨_, List.mem_map_of_mem hd, hpair d hd e he hcovers.value_eq⟩

theorem chain_iff_of_equal {a b : Scope} (h : a.equal b = true) (p : List String) :
    Chain [a] p ↔ Chain [b] p := by
  rw [← chain_ordered (s := a), equal_iff.1 h, chain_ordered]

/-- Scopes without repeated siblings contain each other exactly if they are equal once their markers
are cleared. -/
theorem satisfies_antisymm_iff {a b : Scope} (ha : a.Tidy) (hb : b.Tidy) :
    (a.satisfies b = true ∧ b.satisfies a = true) ↔ a.unmarked.equal b.unmarked = true := by
  constructor
  · rintro ⟨hab, hba⟩
    have hcovers := (satisfies_iff_covers ha).1 hab
    have hcovers' := (satisfies_iff_covers hb).1 hba
    exact (equal_iff_alike (tidy_unmarked ha) (tidy_unmarked hb)).2
      (alike_unmarked_of_covers ha hb hcovers hcovers')
  · intro h
    have hchain : ∀ p, Chain [a] p ↔ Chain [b] p := by
      intro p
      rw [← chain_unmarked (s := a), chain_iff_of_equal h, chain_unmarked]
    exact ⟨(satisfies_iff_chain ha).2 fun p => (hchain p).2,
      (satisfies_iff_chain hb).2 fun p => (hchain p).1⟩

/-- On the scopes that can be made, containment is a partial order but for markers, and equal scopes
contain the same scopes and are contained in the same ones. -/
theorem satisfies_order_of_reachable :
    (∀ a : Scope, a.Reachable → a.satisfies a = true) ∧
    (∀ a b c : Scope, a.Reachable → b.Reachable → c.Reachable →
      a.satisfies b = true → b.satisfies c = true → a.satisfies c = true) ∧
    (∀ a b : Scope, a.Reachable → b.Reachable →
      ((a.satisfies b = true ∧ b.satisfies a = true) ↔ a.unmarked.equal b.unmarked = true)) ∧
    ∀ a b : Scope, a.Reachable → b.Reachable → a.equal b = true → ∀ c : Scope, c.Reachable →
      (a.satisfies c = true ↔ b.satisfies c = true) ∧
      (c.satisfies a = true ↔ c.satisfies b = true) := by
  have hchains : ∀ {a b : Scope}, a.Reachable →
      (a.satisfies b = true ↔ ∀ p, Chain [b] p → Chain [a] p) :=
    fun ha => satisfies_iff_chain ha.wellFormed.tidy
  refine ⟨?_, ?_, ?_, ?_⟩
  · intro a ha
    exact (hchains ha).2 fun p hp => hp
  · intro a b c ha hb hc hab hbc
    exact (hchains ha).2 fun p hp => (hchains ha).1 hab p ((hchains hb).1 hbc p hp)
  · intro a b ha hb
    exact satisfies_antisymm_iff ha.wellFormed.tidy hb.wellFormed.tidy
  · intro a b ha hb hab c hc
    rw [hchains ha, hchains hb, hchains hc, hchains hc]
    simp only [chain_iff_of_equal hab, true_and]

def twoStored : Scope :=
  mk "a" false [mk "b" false [leaf "c" true], leaf "d" false]

def twoReordered : Scope :=
  mk "a" false [leaf "d" false, mk "b" false [leaf "c" true]]

def twoRemarked : Scope :=
  mk "a" false [leaf "d" true, mk "b" false [leaf "c" false]]

def oneStored : Scope :=
  mk "a" false [leaf "b" false]

/-- Of four scopes that are read from one text, the second stores its dependencies in another order
than the first, the third is marked in another way, and the fourth lacks some of them. -/
theorem satisfies_order_of_read :
    (∀ s ∈ [twoStored, twoReordered, twoRemarked, oneStored],
      s.Reachable ∧ s.satisfies s = true) ∧
    twoStored.satisfies oneStored = true ∧
    twoStored.unmarked.equal twoRemarked.unmarked = true ∧
    ∀ c : Scope, c.Reachable →
      (twoStored.satisfies c = true ↔ twoReordered.satisfies c = true) ∧
      (c.satisfies twoStored = true ↔ c.satisfies twoReordered = true) := by
  have hread : Scope.parse "a[b[*c] d] a[d b[*c]] a[*d b[c]] a[b]" =
      .ok [twoStored, twoReordered, twoRemarked, oneStored] := by cbv
  have hreachable := fun s hs => Reachable.parse (s := s) hread hs
  have hall := hreachable
  simp only [List.forall_mem_cons] at hall
  obtain ⟨hfirst, hsecond, hthird, hfourth, -⟩ := hall
  have hdown : twoStored.satisfies twoRemarked = true := by decide +kernel
  have hup : twoRemarked.satisfies twoStored = true := by decide +kernel
  have hpart : twoRemarked.satisfies oneStored = true := by decide +kernel
  have hequal : twoStored.equal twoReordered = true := by cbv
  obtain ⟨hrefl, htrans, hantisymm, hsame⟩ := satisfies_order_of_reachable
  refine ⟨fun s hs => ⟨hreachable s hs, hrefl s (hreachable s hs)⟩, ?_, ?_, ?_⟩
  · exact htrans _ _ _ hfirst hthird hfourth hdown hpart
  · exact (hantisymm _ _ hfirst hthird).1 ⟨hdown, hup⟩
  · exact hsame _ _ hfirst hsecond hequal

end ScopeGrant.Scope
