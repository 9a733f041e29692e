import ScopeGrant.Proofs.Scope.Canonical
import ScopeGrant.Proofs.Scope.Gathering

/-!
# Joining one by one

A scope can be given several dependencies at once, or one after the other. A single dependency is
put into the list that is already there, where it is merged with the one sibling of its value, while
several are appended and the whole list is merged anew. Both give the same tree, because a part of a
list may be merged before the whole of it is, and they are refused alike, because a join is judged by
the value of the scope alone, which stays what it is.

The order of the dependencies decides nothing but the order in which they are stored.
-/

namespace ScopeGrant.Scope

/-! ## One dependency -/

/-- Putting a scope into a list without repeats is merging it with the list. -/
theorem settle_absorbInto_map_ofScope {ds : List Scope} (h : (ds.map value).Nodup) (d : Scope) :
    settle (absorbInto d (ds.map Merged.ofScope)) = normalize (ds ++ [d]) := by
  have hmerged : mergeSiblings ds = ds.map Merged.ofScope := by
    rw [mergeSiblings, foldl_absorbInto_of_nodup (by simpa using h), List.nil_append]
  rw [normalize, mergeSiblings_concat, hmerged]

section Join

variable {s : Scope} {d : Scope} {ds es : List Scope}

theorem addDependency_eq (hs : s.Tidy) (d : Scope) : s.addDependency d = s.addDependencies [d] := by
  have hnodup : (s.dependencies.map value).Nodup := (tidy_iff.1 hs).1
  have hfault : [d].findSome? s.cycleFault? = s.cycleFault? d := by
    rw [List.findSome?_cons, List.findSome?_nil]
    cases s.cycleFault? d <;> rfl
  have hjoin := settle_absorbInto_map_ofScope hnodup d
  rw [addDependency_eq_match, addDependencies, hfault]
  cases s.cycleFault? d with
  | some e => rfl
  | none => exact congrArg (fun es => Except.ok (s.setDependencies es)) hjoin

/-! ## Several dependencies -/

theorem cycleFault?_setDependencies (s : Scope) (ds : List Scope) :
    (s.setDependencies ds).cycleFault? = s.cycleFault? := by
  funext d
  rw [cycleFault?, cycleFault?, value_setDependencies]

theorem addDependencies_nil (hs : s.Tidy) : s.addDependencies [] = .ok s := by
  have hnodup : (s.dependencies.map value).Nodup := (tidy_iff.1 hs).1
  rw [addDependencies_eq_ok_iff, List.append_nil, normalize_of_nodup hnodup,
    setDependencies_dependencies]
  exact ⟨by simp, rfl⟩

theorem tidy_of_mem_dependencies_append (hs : s.Tidy) (hds : ∀ d ∈ ds, d.Tidy) :
    ∀ x ∈ s.dependencies ++ ds, x.Tidy :=
  List.forall_mem_append.2 ⟨fun _ hx => hs.of_mem hx, hds⟩

/-- Dependencies may be joined in two parts. -/
theorem addDependencies_append (hs : s.Tidy) (hds : ∀ d ∈ ds, d.Tidy) (hes : ∀ e ∈ es, e.Tidy) :
    s.addDependencies (ds ++ es) = s.addDependencies ds >>= (·.addDependencies es) := by
  rw [addDependencies, addDependencies, List.findSome?_append]
  cases ds.findSome? s.cycleFault? with
  | some e => rfl
  | none =>
    have hparts : normalize (normalize (s.dependencies ++ ds) ++ es) =
        normalize (s.dependencies ++ (ds ++ es)) := by
      have hfirst := normalize_append_normalize_append (List.forall_mem_nil _)
        (tidy_of_mem_dependencies_append hs hds) hes
      rwa [List.nil_append, List.nil_append, List.append_assoc] at hfirst
    rw [ok_bind, Option.none_or, addDependencies, cycleFault?_setDependencies,
      dependencies_setDependencies, setDependencies_setDependencies, hparts]

theorem tidy_of_addDependencies {s' : Scope} (hs : s.Tidy) (hds : ∀ d ∈ ds, d.Tidy)
    (h : s.addDependencies ds = .ok s') : s'.Tidy := by
  obtain ⟨-, rfl⟩ := addDependencies_eq_ok_iff.1 h
  rw [tidy_iff, dependencies_setDependencies]
  exact tidyList_normalize (tidy_of_mem_dependencies_append hs hds)

/-- Joining several dependencies is joining them one by one, up to the first that is refused. -/
theorem addDependencies_eq_foldlM (hs : s.Tidy) (hds : ∀ d ∈ ds, d.Tidy) :
    s.addDependencies ds = ds.foldlM addDependency s := by
  induction ds generalizing s with
  | nil => exact addDependencies_nil hs
  | cons d ds ih =>
    obtain ⟨hd, hds⟩ := List.forall_mem_cons.1 hds
    have hfirst : ∀ x ∈ [d], x.Tidy := List.forall_mem_singleton.2 hd
    rw [List.foldlM_cons, addDependency_eq hs, ← List.singleton_append,
      addDependencies_append hs hfirst hds]
    cases hstep : s.addDependencies [d] with
    | error e => rfl
    | ok s' =>
      rw [ok_bind, ok_bind]
      exact ih (tidy_of_addDependencies hs hfirst hstep) hds

end Join

/-! ## The order of dependencies -/

theorem beneath_perm {ds es : List Scope} (h : ds.Perm es) (v : String) :
    (beneath ds v).Perm (beneath es v) :=
  (h.filter _).flatMap_right _

/-- Whichever order the scopes of a list are in, merging makes alike scopes of them. -/
theorem alike_normalize_of_perm {ds es : List Scope} (h : ds.Perm es) (hds : ∀ d ∈ ds, d.Tidy) :
    (∀ d ∈ normalize ds, ∃ e ∈ normalize es, d.Alike e) ∧
      ∀ e ∈ normalize es, ∃ d ∈ normalize ds, d.Alike e := by
  induction hn : sizeList ds using Nat.strongRecOn generalizing ds es with
  | ind n ih =>
    subst hn
    have hes : ∀ e ∈ es, e.Tidy := fun e he => hds e (h.mem_iff.2 he)
    have hvalues : ∀ v, v ∈ ds.map value ↔ v ∈ es.map value := fun v => (h.map value).mem_iff
    have hgathered : ∀ v ∈ ds.map value, (gathered ds v).Alike (gathered es v) := by
      intro v hv
      have hbelow := ih _ (sizeList_beneath_lt hv) (beneath_perm h v) (tidy_of_mem_beneath hds) rfl
      exact alike_iff.2 ⟨rfl, (h.filter _).all_eq, hbelow⟩
    simp only [mem_normalize_iff hds, mem_normalize_iff hes]
    constructor
    · rintro d ⟨hv, hd⟩
      exact ⟨gathered es d.value, ⟨(hvalues _).1 hv, rfl⟩, hd ▸ hgathered d.value hv⟩
    · rintro e ⟨hv, he⟩
      exact ⟨gathered ds e.value, ⟨(hvalues _).2 hv, rfl⟩, he ▸ hgathered e.value ((hvalues _).2 hv)⟩

/-- Joining the same dependencies in another order makes an equal scope, or is refused as well. -/
theorem addDependencies_perm {s : Scope} {ds es : List Scope} (h : ds.Perm es) (hs : s.Tidy)
    (hds : ∀ d ∈ ds, d.Tidy) :
    (∃ t t', s.addDependencies ds = .ok t ∧ s.addDependencies es = .ok t' ∧ t.equal t' = true) ∨
      ∃ path path', s.addDependencies ds = .error (.cycle s.value path) ∧
        s.addDependencies es = .error (.cycle s.value path') := by
  have hes : ∀ e ∈ es, e.Tidy := fun e he => hds e (h.mem_iff.2 he)
  have hfault : (∃ t, s.addDependencies ds = .ok t) ↔ ∃ t, s.addDependencies es = .ok t := by
    simp only [addDependencies_eq_ok_iff, h.mem_iff, exists_and_left, exists_eq, and_true]
  cases hfirst : s.addDependencies ds with
  | error e =>
    obtain ⟨path, rfl⟩ := exists_path_of_addDependencies hfirst
    cases hsecond : s.addDependencies es with
    | error e' =>
      obtain ⟨path', rfl⟩ := exists_path_of_addDependencies hsecond
      exact Or.inr ⟨path, path', rfl, rfl⟩
    | ok t' =>
      obtain ⟨t, ht⟩ := hfault.2 ⟨t', hsecond⟩
      rw [hfirst] at ht
      cases ht
  | ok t =>
    obtain ⟨t', hsecond⟩ := hfault.1 ⟨t, hfirst⟩
    refine Or.inl ⟨t, t', rfl, hsecond, ?_⟩
    have htidy := tidy_of_addDependencies hs hds hfirst
    have htidy' := tidy_of_addDependencies hs hes hsecond
    obtain ⟨-, rfl⟩ := addDependencies_eq_ok_iff.1 hfirst
    obtain ⟨-, rfl⟩ := addDependencies_eq_ok_iff.1 hsecond
    have hperm : (s.dependencies ++ ds).Perm (s.dependencies ++ es) := h.append_left _
    have halike := alike_normalize_of_perm hperm (tidy_of_mem_dependencies_append hs hds)
    rw [equal_iff_alike htidy htidy', alike_iff, value_setDependencies, value_setDependencies,
      optional_setDependencies, optional_setDependencies, dependencies_setDependencies,
      dependencies_setDependencies]
    exact ⟨rfl, rfl, halike⟩

/-- On scopes that can be made, joining several dependencies comes to the same as joining them one by
one, stored order and errors included. In whatever order they are joined, the results are equal, or
all of them are refused for a cycle on the value of the scope. -/
theorem addDependencies_eq_foldlM_and_perm (s : Scope) (ds : List Scope) (hs : s.Reachable)
    (hds : ∀ d ∈ ds, d.Reachable) :
    s.addDependencies ds = ds.foldlM addDependency s ∧
    ∀ es, ds.Perm es →
      (∃ t t', s.addDependencies ds = .ok t ∧ s.addDependencies es = .ok t' ∧
        t.equal t' = true) ∨
      ∃ path path', s.addDependencies ds = .error (.cycle s.value path) ∧
        s.addDependencies es = .error (.cycle s.value path') := by
  have htidy : s.Tidy := hs.wellFormed.tidy
  have htidies : ∀ d ∈ ds, d.Tidy := fun d hd => (hds d hd).wellFormed.tidy
  constructor
  · exact addDependencies_eq_foldlM htidy htidies
  · intro es hperm
    exact addDependencies_perm hperm htidy htidies

def firstPart : Scope :=
  mk "b" false [leaf "d" false, leaf "c" true]

/-- A dependency that is merged with the first one at two levels. -/
def secondPart : Scope :=
  mk "b" true [mk "c" false [leaf "f" false]]

def cyclicPart : Scope :=
  mk "e" false [leaf "a" false]

def joinedInOrder : Scope :=
  mk "a" false [mk "b" false [leaf "d" false, mk "c" false [leaf "f" false]], leaf "e" false]

def joinedRotated : Scope :=
  mk "a" false [leaf "e" false, mk "b" false [mk "c" false [leaf "f" false], leaf "d" false]]

/-- Two of the dependencies are merged, at two levels, and another order of them leads to another
stored order at both. With the last one of them the value comes back below itself. -/
theorem addDependencies_eq_foldlM_and_perm_of_merged :
    (leaf "a" false).Reachable ∧
    (∀ d ∈ [firstPart, leaf "e" false, secondPart, cyclicPart], d.Reachable) ∧
    [firstPart, leaf "e" false, secondPart].foldlM addDependency (leaf "a" false) =
      .ok joinedInOrder ∧
    joinedInOrder.equal joinedRotated = true ∧
    [firstPart, cyclicPart].foldlM addDependency (leaf "a" false) =
      .error (.cycle "a" ["a", "e", "a"]) := by
  have hnew : Scope.new "a" = .ok (leaf "a" false) := by cbv
  have hread : Scope.parse "b[d *c] e *b[c[f]] e[a]" =
      .ok [firstPart, leaf "e" false, secondPart, cyclicPart] := by cbv
  have hs : (leaf "a" false).Reachable := .new hnew
  have hds := fun d hd => Reachable.parse (s := d) hread hd
  have hbuilt : (leaf "a" false).addDependencies [firstPart, leaf "e" false, secondPart] =
      .ok joinedInOrder := by cbv
  have hother : (leaf "a" false).addDependencies [leaf "e" false, secondPart, firstPart] =
      .ok joinedRotated := by cbv
  have hrefused : (leaf "a" false).addDependencies [firstPart, cyclicPart] =
      .error (.cycle "a" ["a", "e", "a"]) := by cbv
  have hparts : ∀ d ∈ [firstPart, leaf "e" false, secondPart], d.Reachable :=
    fun d hd => hds d (List.mem_append_left [cyclicPart] hd)
  have hcyclic : ∀ d ∈ [firstPart, cyclicPart], d.Reachable :=
    List.forall_mem_cons.2 ⟨hds _ (by simp), List.forall_mem_singleton.2 (hds _ (by simp))⟩
  obtain ⟨hfold, hperm⟩ := addDependencies_eq_foldlM_and_perm (leaf "a" false) _ hs hparts
  obtain ⟨hfold', -⟩ := addDependencies_eq_foldlM_and_perm (leaf "a" false) _ hs hcyclic
  refine ⟨hs, hds, hfold.symm.trans hbuilt, ?_, hfold'.symm.trans hrefused⟩
  have hrotated : ([firstPart] ++ [leaf "e" false, secondPart]).Perm
      ([leaf "e" false, secondPart] ++ [firstPart]) := List.perm_append_comm
  rcases hperm _ hrotated with ⟨t, t', ht, ht', hequal⟩ | ⟨path, path', herror, -⟩
  · obtain rfl := Except.ok.inj (hbuilt.symm.trans ht)
    obtain rfl := Except.ok.inj (hother.symm.trans ht')
    exact hequal
  · cases hbuilt.symm.trans herror

end ScopeGrant.Scope
