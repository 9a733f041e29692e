import ScopeGrant.Proofs.Except
import ScopeGrant.Proofs.Scope.Builder

/-!
# The cycle that a join reports

A dependency is refused if its tree carries the value of the scope that it would belong to, and the
error shows how it gets there. The search for this value has a stack of pending trees and one chain
that they share, which is cut back each time that it leaves a branch. Since the walk goes down before
it goes on, what is left of the chain always leads to the next tree (`Nested`), and so the search
finds the first one of the chains that it visits (`chainLoop_eq_find?`). This chain holds the value
at its end only, since the search stops there.
-/

namespace ScopeGrant.Scope

open Relation

/-! ## The order of the search -/

/-- The chains down to the scopes of the tree in the order of the search: a scope comes before its
dependencies, and of these the last one first. -/
def visits (s : Scope) : List (List String) :=
  (regroup List.reverse s).chains

theorem visits_eq (s : Scope) :
    s.visits = [s.value] :: (s.dependencies.reverse.flatMap visits).map (s.value :: ·) := by
  cases s with
  | mk v o ds =>
    rw [visits, regroup_mk, chains, chainsList_eq, ← List.map_reverse, List.flatMap_map]
    rfl

theorem mem_visits_iff {s : Scope} {p : List String} : p ∈ s.visits ↔ p ≠ [] ∧ Chain [s] p := by
  have hchain := chain_map_regroup (f := List.reverse)
    (fun ds q => ⟨Chain.mono (List.reverse_subset.2 fun _ h => h), Chain.mono (by simp)⟩) [s] p
  rw [visits, mem_chains_iff, ← hchain, List.map_singleton]

/-- What the search has still to visit: the chains inside each pending tree, below what the shared
chain holds above it. -/
def awaited (chain : List String) (pending : List (Scope × Nat)) : List (List String) :=
  pending.flatMap fun e => e.1.visits.map (chain.take e.2 ++ ·)

theorem awaited_append (chain : List String) (xs ys : List (Scope × Nat)) :
    awaited chain (xs ++ ys) = awaited chain xs ++ awaited chain ys :=
  List.flatMap_append

/-- The pending trees as a walk in depth leaves them: none lies deeper than the ones before it, nor
deeper than the shared chain reaches. -/
structure Nested (chain : List String) (pending : List (Scope × Nat)) : Prop where
  descending : pending.Pairwise fun e f => f.2 ≤ e.2
  reached : ∀ e ∈ pending, e.2 ≤ chain.length

section Visit

variable {chain : List String} {s : Scope} {above : Nat} {pending : List (Scope × Nat)}

theorem length_visited (h : Nested chain ((s, above) :: pending)) :
    (chain.take above ++ [s.value]).length = above + 1 := by
  have hreached : above ≤ chain.length := h.reached _ (List.mem_cons_self ..)
  rw [List.length_append, List.length_take, List.length_singleton]
  omega

/-- Visiting a scope leaves the pending trees nested. -/
theorem Nested.visit (h : Nested chain ((s, above) :: pending)) :
    Nested (chain.take above ++ [s.value])
      (s.dependencies.reverse.map (·, above + 1) ++ pending) := by
  obtain ⟨hfirst, hrest⟩ := List.pairwise_cons.1 h.descending
  have hlevel : ∀ e ∈ s.dependencies.reverse.map (·, above + 1), e.2 = above + 1 := by
    intro e he
    obtain ⟨d, -, rfl⟩ := List.mem_map.1 he
    rfl
  constructor
  · refine List.pairwise_append.2 ⟨?_, hrest, ?_⟩
    · refine List.pairwise_of_forall_mem_list fun e he f hf => ?_
      exact Nat.le_of_eq ((hlevel f hf).trans (hlevel e he).symm)
    · intro e he f hf
      have hdeeper : f.2 ≤ above := hfirst f hf
      rw [hlevel e he]
      omega
  · intro e he
    rw [length_visited h]
    rcases List.mem_append.1 he with he | he
    · exact Nat.le_of_eq (hlevel e he)
    · have hdeeper : e.2 ≤ above := hfirst e he
      omega

/-- A visit takes the first one of the awaited chains, and the others stay as they were: what it cuts
off the shared chain belongs to none of the pending trees. -/
theorem awaited_visit (h : Nested chain ((s, above) :: pending)) :
    awaited chain ((s, above) :: pending) =
      (chain.take above ++ [s.value]) ::
        awaited (chain.take above ++ [s.value])
          (s.dependencies.reverse.map (·, above + 1) ++ pending) := by
  have hfirst := (List.pairwise_cons.1 h.descending).1
  have hreached : above ≤ chain.length := h.reached _ (List.mem_cons_self ..)
  have hbelow : awaited (chain.take above ++ [s.value]) (s.dependencies.reverse.map (·, above + 1)) =
      (s.dependencies.reverse.flatMap visits).map (chain.take above ++ s.value :: ·) := by
    have hall : (chain.take above ++ [s.value]).take (above + 1) = chain.take above ++ [s.value] :=
      List.take_of_length_le (Nat.le_of_eq (length_visited h))
    rw [awaited, List.flatMap_map, List.map_flatMap]
    refine List.flatMap_congr fun d _ => ?_
    simp only [hall, List.append_assoc, List.singleton_append]
  have hrest : awaited (chain.take above ++ [s.value]) pending = awaited chain pending := by
    refine List.flatMap_congr fun e he => ?_
    have hlevel : e.2 ≤ above := hfirst e he
    rw [List.take_append_of_le_length (by rw [List.length_take]; omega), List.take_take,
      Nat.min_eq_left hlevel]
  rw [awaited_append, hbelow, hrest, awaited, List.flatMap_cons, visits_eq]
  simp [awaited]

end Visit

/-! ## What the search finds -/

/-- The search finds the first awaited chain that ends in the value. -/
theorem chainLoop_eq_find? {target : String} {chain : List String} {pending : List (Scope × Nat)}
    (h : Nested chain pending) :
    chainLoop target chain pending =
      (awaited chain pending).find? (·.getLast? == some target) := by
  fun_induction chainLoop target chain pending with
  | case1 => rfl
  | case2 chain s above pending next hv =>
    rw [awaited_visit h, List.find?_cons_of_pos]
    simpa using hv
  | case3 chain s above pending next hv ih =>
    rw [awaited_visit h, List.find?_cons_of_neg, ih h.visit]
    simpa using hv

theorem chainTo?_eq_find? (s : Scope) (target : String) :
    s.chainTo? target = s.visits.find? (·.getLast? == some target) := by
  rw [chainTo?, chainLoop_eq_find? ⟨List.pairwise_singleton _ _, by simp⟩]
  simp [awaited]

/-- The search stops where it meets the value, so the shared chain never holds it before. -/
theorem exists_of_chainLoop {target : String} {chain p : List String}
    {pending : List (Scope × Nat)} (hchain : target ∉ chain)
    (h : chainLoop target chain pending = some p) :
    ∃ q, p = q ++ [target] ∧ target ∉ q := by
  fun_induction chainLoop target chain pending with
  | case1 => cases h
  | case2 chain s above pending next hv =>
    obtain rfl := beq_iff_eq.1 hv
    exact ⟨chain.take above, (Option.some.inj h).symm, fun hin => hchain (List.mem_of_mem_take hin)⟩
  | case3 chain s above pending next hv ih =>
    refine ih ?_ h
    rw [List.mem_append, List.mem_singleton]
    rintro (hin | rfl)
    · exact hchain (List.mem_of_mem_take hin)
    · exact hv (beq_iff_eq.2 rfl)

/-- `p` is the chain down to the first scope with the value `v`, in the order of the search. -/
def FirstVisit (s : Scope) (v : String) (p : List String) : Prop :=
  p.getLast? = some v ∧
    ∃ before after, s.visits = before ++ p :: after ∧ ∀ q ∈ before, q.getLast? ≠ some v

theorem chainTo?_eq_some_iff {s : Scope} {v : String} {p : List String} :
    s.chainTo? v = some p ↔ s.FirstVisit v p := by
  rw [chainTo?_eq_find?, List.find?_eq_some_iff_append, FirstVisit]
  simp

theorem FirstVisit.chain {s : Scope} {v : String} {p : List String} (h : s.FirstVisit v p) :
    Chain [s] p := by
  obtain ⟨-, before, after, hvisits, -⟩ := h
  have hmem : p ∈ s.visits := by simp [hvisits]
  exact (mem_visits_iff.1 hmem).2

/-! ## What a join reports -/

section Join

variable {s d : Scope} {e : ScopeError}

theorem exists_cycleFault?_iff :
    (∃ e, s.cycleFault? d = some e) ↔ ∃ t, ReflTransGen Depends d t ∧ t.value = s.value := by
  rw [← Option.isSome_iff_exists, Option.isSome_iff_ne_none, ne_eq, cycleFault?_eq_none_iff]
  simp

theorem exists_firstVisit_of_cycleFault? (h : s.cycleFault? d = some e) :
    ∃ path, e = .cycle s.value (s.value :: (path ++ [s.value])) ∧ s.value ∉ path ∧
      d.FirstVisit s.value (path ++ [s.value]) := by
  obtain ⟨p, hp, rfl⟩ := Option.map_eq_some_iff.1 h
  obtain ⟨path, rfl, hpath⟩ := exists_of_chainLoop List.not_mem_nil hp
  exact ⟨path, rfl, hpath, chainTo?_eq_some_iff.1 hp⟩

theorem joinDependency_eq_error_iff {left : Scope} :
    (joinDependency d).run s = .error e left ↔ s.cycleFault? d = some e ∧ left = s := by
  rw [joinDependency_run]
  cases s.cycleFault? d with
  | none => simp
  | some e' => simp [eq_comm]

theorem exists_joinDependency_eq_error_iff :
    (∃ left, (joinDependency d).run s = .error e left) ↔ s.cycleFault? d = some e := by
  simp [joinDependency_eq_error_iff]

theorem addDependencies_eq_error_iff {ds : List Scope} :
    s.addDependencies ds = .error e ↔
      FirstFault (fun _ d e => s.cycleFault? d = some e) ds e := by
  have hfirst : s.addDependencies ds = .error e ↔ ds.findSome? s.cycleFault? = some e := by
    rw [addDependencies]
    cases ds.findSome? s.cycleFault? <;> simp
  have hnone : ∀ x, s.cycleFault? x = none ↔ ∀ e', ¬ s.cycleFault? x = some e' := by
    intro x
    rw [Option.eq_none_iff_forall_ne_some]
  rw [hfirst, List.findSome?_eq_some_iff, FirstFault]
  simp only [faultless_iff_forall_mem, hnone]
  constructor
  · rintro ⟨before, x, after, hsplit, hx, hbefore⟩
    exact ⟨before, x, after, hsplit, hbefore, hx⟩
  · rintro ⟨before, x, after, hsplit, hbefore, hx⟩
    exact ⟨before, x, after, hsplit, hx, hbefore⟩

end Join

/-- Joining a dependency fails exactly if the value of the scope occurs in its tree. The scope is then
as it was, and the error shows the value, the chain down to the first scope of the dependency that
carries it, and this value nowhere in between. Several dependencies are refused exactly if one of them
would be, with the error of the first such one. -/
theorem joinDependency_fails_iff_and_reports_first_visit (s : Scope) :
    (∀ d,
      ((∃ e left, (joinDependency d).run s = .error e left) ↔
        ∃ t, ReflTransGen Depends d t ∧ t.value = s.value) ∧
      ∀ e left, (joinDependency d).run s = .error e left →
        left = s ∧ ∃ path, e = .cycle s.value (s.value :: (path ++ [s.value])) ∧
          s.value ∉ path ∧ Chain [d] (path ++ [s.value]) ∧
          d.FirstVisit s.value (path ++ [s.value])) ∧
    ∀ ds,
      ((∃ e, s.addDependencies ds = .error e) ↔
        ∃ d ∈ ds, ∃ e left, (joinDependency d).run s = .error e left) ∧
      ∀ e, s.addDependencies ds = .error e ↔
        FirstFault (fun _ d e => ∃ left, (joinDependency d).run s = .error e left) ds e := by
  simp only [exists_joinDependency_eq_error_iff]
  refine ⟨fun d => ⟨exists_cycleFault?_iff, ?_⟩, fun ds => ⟨?_, ?_⟩⟩
  · intro e left h
    obtain ⟨hfault, rfl⟩ := joinDependency_eq_error_iff.1 h
    obtain ⟨path, he, hpath, hvisit⟩ := exists_firstVisit_of_cycleFault? hfault
    exact ⟨rfl, path, he, hpath, hvisit.chain, hvisit⟩
  · have hfails : (∃ e, s.addDependencies ds = .error e) ↔
        ¬ Faultless (fun _ d e => s.cycleFault? d = some e) ds := by
      simp [faultless_iff, addDependencies_eq_error_iff]
    rw [hfails, faultless_iff_forall_mem]
    simp
  · exact fun e => addDependencies_eq_error_iff

def forkedCycle : Scope :=
  mk "b" false [mk "c" false [leaf "a" false],
    mk "d" true [mk "e" false [leaf "a" true], leaf "f" false]]

/-- The value lies in both branches of the dependency, and the error shows the chain that leads
through the last one. Of the dependencies of a list the first one with the value is reported. -/
theorem joinDependency_fails_and_reports_last_branch :
    (joinDependency forkedCycle).run (leaf "a" false) =
      .error (.cycle "a" ["a", "b", "d", "e", "a"]) (leaf "a" false) ∧
    (∃ t, ReflTransGen Depends forkedCycle t ∧ t.value = "a") ∧
    forkedCycle.FirstVisit "a" (["b", "d", "e"] ++ ["a"]) ∧
    (leaf "a" false).addDependencies [leaf "g" false, forkedCycle, leaf "a" false] =
      .error (.cycle "a" ["a", "b", "d", "e", "a"]) := by
  have hrun : (joinDependency forkedCycle).run (leaf "a" false) =
      .error (.cycle "a" ["a", "b", "d", "e", "a"]) (leaf "a" false) := by
    rw [joinDependency_run]
    cbv
  have htaken : (joinDependency (leaf "g" false)).run (leaf "a" false) =
      .ok () (mk "a" false [leaf "g" false]) := by
    rw [joinDependency_run]
    cbv
  obtain ⟨hone, hseveral⟩ := joinDependency_fails_iff_and_reports_first_visit (leaf "a" false)
  obtain ⟨-, path, herror, -, -, hvisit⟩ := (hone _).2 _ _ hrun
  obtain ⟨-, hpath⟩ := ScopeError.cycle.inj herror
  have hpath : ["b", "d", "e"] = path := List.append_cancel_right (List.cons.inj hpath).2
  refine ⟨hrun, (hone _).1.1 ⟨_, _, hrun⟩, hpath ▸ hvisit, ?_⟩
  refine ((hseveral _).2 _).2 ⟨[leaf "g" false], _, [leaf "a" false], rfl, ?_, _, hrun⟩
  refine faultless_iff_forall_mem.2 (List.forall_mem_singleton.2 ?_)
  rintro e ⟨left, hfailed⟩
  cases htaken.symm.trans hfailed

end ScopeGrant.Scope
