import Mathlib
import ScopeGrant.Proofs.Scope.Builder
import ScopeGrant.Proofs.Scope.Reading

/-!
# Every scope that can be made is well formed

Scopes come out of the reader, out of `new` and out of the operations that join, copy and take apart
scopes that exist. `Reachable` is what can be made by any number of these steps in any order, and
`WellFormed` is the invariant that each of them keeps. A join looks only at the value at the top of
the scope that it extends; that this is enough follows from the chains of the joined tree, each of
which is a chain of one of its parts.
-/

namespace ScopeGrant.Scope

open Relation

/-- The invariant of scope trees: every value can stand in an expression, siblings differ in their
values, and no scope carries the value of a scope above it. -/
structure WellFormed (s : Scope) : Prop where
  values : ∀ t, ReflTransGen Depends s t → IsValue t.value
  tidy : s.Tidy
  acyclic : s.Acyclic

namespace WellFormed

variable {s d s' : Scope} {ds : List Scope}

theorem of_mem (h : s.WellFormed) (hd : d ∈ s.dependencies) : d.WellFormed :=
  ⟨fun t ht => h.values t (.head hd ht), h.tidy.of_mem hd, h.acyclic.of_mem hd⟩

theorem leaf {v : String} (hv : IsValue v) (o : Bool) : (leaf v o).WellFormed := by
  refine ⟨?_, ?_, ?_⟩
  · exact forall_inside_iff.2 ⟨hv, by simp [Scope.leaf]⟩
  · exact tidy_iff.2 (by simp [TidyList, Scope.leaf])
  · exact forall_inside_iff.2 ⟨fun u hu => by simp [TransGen.head'_iff, Depends, Scope.leaf] at hu,
      by simp [Scope.leaf]⟩

/-- The chains of a well-formed scope hold values that can be written, and none of them twice. -/
theorem chain (h : s.WellFormed) {p : List String} (hp : Chain [s] p) :
    (∀ v ∈ p, IsValue v) ∧ p.Nodup :=
  ⟨forall_value_inside_iff.1 h.values p hp, acyclic_iff.1 h.acyclic p hp⟩

/-- A scope is well formed if its chains are in order and no value is repeated among siblings. -/
theorem of_chain (hchain : ∀ p, Chain [s] p → (∀ v ∈ p, IsValue v) ∧ p.Nodup) (htidy : s.Tidy) :
    s.WellFormed :=
  ⟨forall_value_inside_iff.2 fun p hp => (hchain p hp).1, htidy,
    acyclic_iff.2 fun p hp => (hchain p hp).2⟩

theorem withOptional (h : s.WellFormed) (o : Bool) : (s.withOptional o).WellFormed := by
  have htidy : TidyList (s.withOptional o).dependencies := by
    rw [dependencies_withOptional]
    exact tidy_iff.1 h.tidy
  refine of_chain (fun p hp => h.chain ?_) (tidy_iff.2 htidy)
  cases p with
  | nil => exact chain_nil _
  | cons v p => simpa [chain_singleton] using hp

/-- A scope may be given other dependencies if these are tidy and each of their chains is one of the
old dependencies or one of trees that do not carry the value of the scope. -/
theorem setDependencies (h : s.WellFormed) (htidy : TidyList ds) (es : List Scope)
    (hes : ∀ e ∈ es, e.WellFormed)
    (hvalue : ∀ e ∈ es, ∀ t, ReflTransGen Depends e t → t.value ≠ s.value)
    (hchain : ∀ p, Chain ds p → Chain s.dependencies p ∨ Chain es p) :
    (s.setDependencies ds).WellFormed := by
  refine of_chain (fun p hp => ?_) (tidy_iff.2 (by rwa [dependencies_setDependencies]))
  cases p with
  | nil => exact ⟨by simp, List.nodup_nil⟩
  | cons v p =>
    obtain ⟨rfl, hbelow⟩ := chain_singleton.1 hp
    rw [value_setDependencies]
    rw [dependencies_setDependencies] at hbelow
    rcases hchain p hbelow with hold | hnew
    · exact h.chain hold.up
    · by_cases hnil : p = []
      · rw [hnil]
        exact h.chain (chain_nil _).up
      · -- a chain of a new tree was free of repeats, and the value on top of it is new to it
        obtain ⟨e, he, hep⟩ := exists_chain_singleton hnew hnil
        obtain ⟨hvalues, hnodup⟩ := (hes e he).chain hep
        have hnot : s.value ∉ p := by
          intro hmem
          obtain ⟨e, he, t, ht, htv⟩ := hnew.exists_inside hmem
          exact hvalue e he t ht htv
        exact ⟨List.forall_mem_cons.2 ⟨h.values s .refl, hvalues⟩, List.nodup_cons.2 ⟨hnot, hnodup⟩⟩

theorem addDependency (h : s.WellFormed) (hd : d.WellFormed) (hs : s.addDependency d = .ok s') :
    s'.WellFormed := by
  obtain ⟨hvalue, rfl⟩ := addDependency_eq_ok_iff.1 hs
  have htidy : TidyList (settle (absorbInto d (s.dependencies.map Merged.ofScope))) :=
    tidyList_settle ((SoundList.ofScopes (tidy_iff.1 h.tidy)).absorbInto hd.tidy)
  refine h.setDependencies htidy [d] (by simpa) (by simpa) fun p hp => ?_
  rw [chain_settle, chain_absorbInto, List.map_map] at hp
  have hmap : s.dependencies.map (Merged.scope ∘ Merged.ofScope) = s.dependencies :=
    List.map_id'' (fun _ => rfl) _
  rwa [hmap] at hp

theorem addDependencies (h : s.WellFormed) (hds : ∀ d ∈ ds, d.WellFormed)
    (hs : s.addDependencies ds = .ok s') : s'.WellFormed := by
  obtain ⟨hvalue, rfl⟩ := addDependencies_eq_ok_iff.1 hs
  have htidy : TidyList (normalize (s.dependencies ++ ds)) := by
    refine tidyList_normalize fun d hd => ?_
    rcases List.mem_append.1 hd with hd | hd
    · exact (h.of_mem hd).tidy
    · exact (hds d hd).tidy
  refine h.setDependencies htidy ds hds hvalue fun p hp => ?_
  rwa [chain_normalize, chain_append] at hp

end WellFormed

/-! ## Reading -/

/-- The grammar writes nothing but values that can be written. -/
theorem Terms.isValue {ds : List Scope} {text : List Char} (h : Terms ds text) :
    ∀ d ∈ ds, ∀ t, ReflTransGen Depends d t → IsValue t.value := by
  induction h with
  | plain hv => exact List.forall_mem_singleton.2 (WellFormed.leaf hv _).values
  | block hv _ _ _ ih => exact List.forall_mem_singleton.2 (forall_inside_iff.2 ⟨hv, ih⟩)
  | more _ _ _ _ ih ih' => exact List.forall_mem_cons.2 ⟨List.forall_mem_singleton.1 ih, ih'⟩

theorem Expression.isValue {ds : List Scope} {text : List Char} (h : Expression ds text) :
    ∀ d ∈ ds, ∀ t, ReflTransGen Depends d t → IsValue t.value := by
  cases h with
  | blank => simp
  | row _ h _ => exact h.isValue

theorem wellFormed_of_parse {parser : Parser} {input : String} {scopes : List Scope}
    (h : parser.parse input = .ok scopes) : ∀ s ∈ scopes, s.WellFormed := by
  obtain ⟨ds, hexpr, hclear, rfl⟩ := Parser.parse_sound h
  intro s hs
  obtain ⟨d, hd, rfl⟩ := List.mem_map.1 hs
  refine .of_chain (fun p hp => ?_) (tidy_collapse d)
  rw [chain_collapse] at hp
  exact ⟨forall_value_inside_iff.1 (hexpr.isValue d hd) p hp,
    acyclic_iff.1 (clear_top_iff.1 hclear d hd) p hp⟩

theorem parseOne_eq_ok {parser : Parser} {input : String} {s : Scope}
    (h : parser.parseOne input = .ok s) : parser.parse input = .ok [s] := by
  unfold Parser.parseOne at h
  split at h
  · cases h
  · split at h <;> cases h
    assumption

/-! ## Whatever is made -/

/-- A scope that can be made by reading and building. -/
inductive Reachable : Scope → Prop where
  | parse {parser : Parser} {input : String} {scopes : List Scope} {s : Scope}
      (h : parser.parse input = .ok scopes) (hs : s ∈ scopes) : Reachable s
  | parseOne {parser : Parser} {input : String} {s : Scope} (h : parser.parseOne input = .ok s) :
      Reachable s
  | new {v : String} {s : Scope} (h : new v = .ok s) : Reachable s
  | newOptional {v : String} {s : Scope} (h : newOptional v = .ok s) : Reachable s
  | withOptional {s : Scope} (hs : Reachable s) (o : Bool) : Reachable (s.withOptional o)
  | addDependency {s d s' : Scope} (hs : Reachable s) (hd : Reachable d)
      (h : s.addDependency d = .ok s') : Reachable s'
  | addDependencies {s s' : Scope} {ds : List Scope} (hs : Reachable s)
      (hds : ∀ d ∈ ds, Reachable d) (h : s.addDependencies ds = .ok s') : Reachable s'
  | copy {s : Scope} (hs : Reachable s) : Reachable s.copy
  | dependency {s d : Scope} (hs : Reachable s) (hd : d ∈ s.dependencies) : Reachable d

theorem Reachable.wellFormed {s : Scope} (h : s.Reachable) : s.WellFormed := by
  induction h with
  | parse h hs => exact wellFormed_of_parse h _ hs
  | parseOne h => exact wellFormed_of_parse (parseOne_eq_ok h) _ (List.mem_singleton_self _)
  | new h =>
    obtain ⟨hv, rfl⟩ := new_eq_ok_iff.1 h
    exact .leaf hv false
  | newOptional h =>
    obtain ⟨t, ht, hs⟩ := bind_eq_ok_iff.1 h
    obtain ⟨hv, rfl⟩ := new_eq_ok_iff.1 ht
    cases hs
    exact .leaf hv true
  | withOptional _ o ih => exact ih.withOptional o
  | addDependency _ _ h ih ihd => exact ih.addDependency ihd h
  | addDependencies _ _ h ih ihds => exact ih.addDependencies ihds h
  | copy _ ih => rwa [copy_eq]
  | dependency _ hd ih => exact ih.of_mem hd

/-- Of every scope that can be made, and of every scope inside it: the value is not empty and holds
neither blanks nor stars nor brackets, no two direct dependencies have the same value, and nothing
below carries the value. -/
theorem Reachable.invariant {s : Scope} (h : s.Reachable) (t : Scope)
    (ht : ReflTransGen Depends s t) :
    (t.value ≠ "" ∧
      ∀ c ∈ t.value.toList, Text.isBlank c = false ∧ c ≠ '*' ∧ c ≠ '[' ∧ c ≠ ']') ∧
    (t.dependencies.map value).Nodup ∧ ∀ u, TransGen Depends t u → u.value ≠ t.value := by
  have hs := h.wellFormed
  obtain ⟨hne, hchars⟩ := hs.values t ht
  exact ⟨⟨hne, fun c hc => isReserved_eq_false (hchars c hc)⟩, hs.tidy t ht, hs.acyclic t ht⟩

def mergedBelow : Scope :=
  mk "b" false [leaf "c" false]

/-- The invariant inside a scope that took in the same dependency twice, first as a leaf and then
with a dependency of its own. -/
theorem Reachable.invariant_of_merged :
    (mk "a" false [mergedBelow]).Reachable ∧
    ReflTransGen Depends (mk "a" false [mergedBelow]) mergedBelow ∧
    ("b" ≠ "" ∧
      ∀ c ∈ "b".toList, Text.isBlank c = false ∧ c ≠ '*' ∧ c ≠ '[' ∧ c ≠ ']') ∧
    (mergedBelow.dependencies.map value).Nodup ∧
    ∀ u, TransGen Depends mergedBelow u → u.value ≠ "b" := by
  have hnew : Scope.new "a" = .ok (leaf "a" false) := by cbv
  have hoptional : Scope.newOptional "b" = .ok (leaf "b" true) := by cbv
  have hread : Scope.parseOne "b[c]" = .ok mergedBelow := by cbv
  have hab : (mk "a" false [leaf "b" true]).Reachable :=
    (Reachable.new hnew).addDependency (.newOptional hoptional)
      (by rw [addDependency_eq_match]; cbv)
  have habc : (mk "a" false [mergedBelow]).Reachable :=
    hab.addDependency (.parseOne hread) (by rw [addDependency_eq_match]; cbv)
  have hinside : ReflTransGen Depends (mk "a" false [mergedBelow]) mergedBelow :=
    .single (List.mem_singleton_self _)
  exact ⟨habc, hinside, habc.invariant _ hinside⟩

end ScopeGrant.Scope
