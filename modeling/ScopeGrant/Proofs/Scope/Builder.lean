import ScopeGrant.Proofs.Scope.Chain
import ScopeGrant.Proofs.Scope.Grammar
import ScopeGrant.Scope.Builder

/-!
# What building refuses

A value is refused exactly if it cannot stand in an expression, and joining a dependency is refused
exactly if its tree carries the value of the scope that it would belong to.
-/

namespace ScopeGrant.Scope

open Relation

/-! ## Values -/

theorem reservedAt?_eq_none_iff {position : Nat} {text : List Char} :
    reservedAt? position text = none ↔ ∀ c ∈ text, isReserved c = false := by
  induction text generalizing position with
  | nil => simp [reservedAt?]
  | cons c text ih =>
    rw [reservedAt?, List.forall_mem_cons]
    cases hc : isReserved c <;> simp [ih]

theorem valueFault?_eq_none_iff {v : String} : valueFault? v = none ↔ IsValue v := by
  unfold valueFault? IsValue
  by_cases hv : v = ""
  · simp [hv]
  · have hne : v.isEmpty = false := by simpa using hv
    rw [hne, if_neg Bool.false_ne_true, Option.map_eq_none_iff, reservedAt?_eq_none_iff]
    exact ⟨fun h => ⟨hv, h⟩, And.right⟩

theorem new_eq_ok_iff {v : String} {s : Scope} :
    new v = .ok s ↔ IsValue v ∧ s = leaf v false := by
  rw [← valueFault?_eq_none_iff, new]
  cases valueFault? v with
  | some e => simp
  | none => simp [eq_comm]

/-! ## Cycles -/

/-- The search finds nothing exactly if none of the pending trees carries the value. -/
theorem chainLoop_eq_none_iff {target : String} {chain : List String}
    {pending : List (Scope × Nat)} :
    chainLoop target chain pending = none ↔
      ∀ e ∈ pending, ∀ t, ReflTransGen Depends e.1 t → t.value ≠ target := by
  fun_induction chainLoop target chain pending with
  | case1 => simp
  | case2 chain s above pending next hv =>
    have hvalue : s.value = target := beq_iff_eq.1 hv
    simp only [reduceCtorEq, List.forall_mem_cons, false_iff]
    exact fun h => h.1 s .refl hvalue
  | case3 chain s above pending next hv ih =>
    have hvalue : s.value ≠ target := fun h => hv (beq_iff_eq.2 h)
    rw [ih, List.forall_mem_cons, forall_inside_iff, List.forall_mem_append]
    refine and_congr_left fun _ => ?_
    simp only [List.mem_map, List.mem_reverse, forall_exists_index, and_imp,
      forall_apply_eq_imp_iff₂, hvalue, ne_eq, not_false_eq_true, true_and]

theorem chainTo?_eq_none_iff {s : Scope} {target : String} :
    s.chainTo? target = none ↔ ∀ t, ReflTransGen Depends s t → t.value ≠ target := by
  rw [chainTo?, chainLoop_eq_none_iff, List.forall_mem_singleton]

theorem cycleFault?_eq_none_iff {s d : Scope} :
    s.cycleFault? d = none ↔ ∀ t, ReflTransGen Depends d t → t.value ≠ s.value := by
  rw [cycleFault?, Option.map_eq_none_iff, chainTo?_eq_none_iff]

/-- Looking for a cycle changes nothing. -/
theorem refuseCycle_run (s d : Scope) :
    (refuseCycle d).run s = match s.cycleFault? d with
      | some e => .error e s
      | none => .ok () s := by
  have hrun : (refuseCycle d).run s = (match s.cycleFault? d with
      | some e => throw e
      | none => return () : Change Unit).run s := rfl
  rw [hrun]
  cases s.cycleFault? d <;> rfl

/-- Nothing is taken in before the cycle is looked for: a join that fails leaves the scope as it
was. -/
theorem joinDependency_run (s d : Scope) :
    (joinDependency d).run s = match s.cycleFault? d with
      | some e => .error e s
      | none => .ok () (s.setDependencies
          (settle (absorbInto d (s.dependencies.map Merged.ofScope)))) := by
  have hrun : (joinDependency d).run s = (refuseCycle d).bind (fun _ => takeIn d) s := rfl
  have hrefuse := refuseCycle_run s d
  rw [EStateM.run] at hrefuse
  rw [hrun, EStateM.bind, hrefuse]
  cases s.cycleFault? d <;> rfl

theorem addDependency_eq_match (s d : Scope) :
    s.addDependency d = match s.cycleFault? d with
      | some e => .error e
      | none => .ok (s.setDependencies
          (settle (absorbInto d (s.dependencies.map Merged.ofScope)))) := by
  rw [addDependency, joinDependency_run]
  cases s.cycleFault? d <;> rfl

theorem addDependency_eq_ok_iff {s d s' : Scope} :
    s.addDependency d = .ok s' ↔
      (∀ t, ReflTransGen Depends d t → t.value ≠ s.value) ∧
        s' = s.setDependencies
          (settle (absorbInto d (s.dependencies.map Merged.ofScope))) := by
  rw [← cycleFault?_eq_none_iff, addDependency_eq_match]
  cases s.cycleFault? d with
  | some e => simp
  | none => simp [eq_comm]

theorem addDependencies_eq_ok_iff {s s' : Scope} {ds : List Scope} :
    s.addDependencies ds = .ok s' ↔
      (∀ d ∈ ds, ∀ t, ReflTransGen Depends d t → t.value ≠ s.value) ∧
        s' = s.setDependencies (normalize (s.dependencies ++ ds)) := by
  have hnone : ds.findSome? s.cycleFault? = none ↔
      ∀ d ∈ ds, ∀ t, ReflTransGen Depends d t → t.value ≠ s.value := by
    simp only [List.findSome?_eq_none_iff, cycleFault?_eq_none_iff]
  rw [← hnone, addDependencies]
  cases ds.findSome? s.cycleFault? with
  | some e => simp
  | none => simp [eq_comm]

theorem exists_path_of_cycleFault? {s d : Scope} {e : ScopeError} (h : s.cycleFault? d = some e) :
    ∃ path, e = .cycle s.value path := by
  obtain ⟨chain, -, rfl⟩ := Option.map_eq_some_iff.1 h
  exact ⟨_, rfl⟩

/-- A join is refused for no other reason than a cycle on the value of the scope. -/
theorem exists_path_of_addDependencies {s : Scope} {ds : List Scope} {e : ScopeError}
    (h : s.addDependencies ds = .error e) : ∃ path, e = .cycle s.value path := by
  unfold addDependencies at h
  split at h
  · rename_i hfault
    cases h
    obtain ⟨d, -, hd⟩ := List.exists_of_findSome?_eq_some hfault
    exact exists_path_of_cycleFault? hd
  · cases h

end ScopeGrant.Scope
