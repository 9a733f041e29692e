import ScopeGrant.Proofs.Scope.Containment
import ScopeGrant.Proofs.Scope.Stepwise

/-!
# A join is a least upper bound

Containment orders scopes by their chains. Joining a dependency adds just the chains that lead
through it, also where it is merged with a sibling at every level, and so the joined scope is the
least one that contains both the scope as it was and the scope with this dependency alone: whatever
satisfies both satisfies the joined one, and the other way round.
-/

namespace ScopeGrant.Scope

variable {s s' x d : Scope} {ds : List Scope}

/-- The chains of a scope with further dependencies lead through it as it was or through one of
these. -/
theorem chain_of_addDependencies (o : Bool) (h : s.addDependencies ds = .ok s') (p : List String) :
    Chain [s'] p ↔ Chain [s] p ∨ ∃ d ∈ ds, Chain [mk s.value o [d]] p := by
  obtain ⟨-, rfl⟩ := addDependencies_eq_ok_iff.1 h
  cases p with
  | nil => simp
  | cons v p =>
    simp only [chain_singleton, value_setDependencies, dependencies_setDependencies, value_mk,
      dependencies_mk, chain_normalize, chain_append]
    constructor
    · rintro ⟨hv, hold | hnew⟩
      · exact Or.inl ⟨hv, hold⟩
      · by_cases hnil : p = []
        · rw [hnil]
          exact Or.inl ⟨hv, chain_nil _⟩
        · obtain ⟨d, hd, hp⟩ := exists_chain_singleton hnew hnil
          exact Or.inr ⟨d, hd, hv, hp⟩
    · rintro (⟨hv, hold⟩ | ⟨d, hd, hv, hp⟩)
      · exact ⟨hv, Or.inl hold⟩
      · exact ⟨hv, Or.inr (hp.of_mem hd)⟩

/-- What satisfies a scope with further dependencies is what satisfies it as it was and with each of
these alone. -/
theorem satisfies_addDependencies_iff (hx : x.Tidy) (o : Bool)
    (h : s.addDependencies ds = .ok s') :
    x.satisfies s' = true ↔
      x.satisfies s = true ∧ ∀ d ∈ ds, x.satisfies (mk s.value o [d]) = true := by
  simp only [satisfies_iff_chain hx, chain_of_addDependencies o h]
  constructor
  · intro hall
    refine ⟨fun p hp => hall p (Or.inl hp), fun d hd p hp => ?_⟩
    exact hall p (Or.inr ⟨d, hd, hp⟩)
  · rintro ⟨hold, hnew⟩ p (hp | ⟨d, hd, hp⟩)
    · exact hold p hp
    · exact hnew d hd p hp

/-- A scope loses nothing of what it satisfies when it is given dependencies. -/
theorem satisfies_of_addDependencies (hs : s.Tidy) (hds : ∀ d ∈ ds, d.Tidy)
    (h : s.addDependencies ds = .ok s') {y : Scope} (hy : s.satisfies y = true) :
    s'.satisfies y = true := by
  rw [satisfies_iff_chain (tidy_of_addDependencies hs hds h)]
  intro p hp
  exact (chain_of_addDependencies false h p).2 (Or.inl ((satisfies_iff_chain hs).1 hy p hp))

/-- The value of a scope that can be made, with a dependency that may be joined to the scope, can be
made as well. -/
theorem Reachable.singleton (hs : s.Reachable) (hd : d.Reachable) (h : s.addDependency d = .ok s')
    (o : Bool) : (mk s.value o [d]).Reachable := by
  have hvalue : IsValue s.value := hs.wellFormed.values s .refl
  have hnew : Scope.new s.value = .ok (leaf s.value false) := new_eq_ok_iff.2 ⟨hvalue, rfl⟩
  have hfree := (addDependency_eq_ok_iff.1 h).1
  have hbuilt : (leaf s.value false).addDependency d = .ok (mk s.value false [d]) := by
    rw [addDependency_eq (WellFormed.leaf hvalue false).tidy, addDependencies_eq_ok_iff]
    refine ⟨by simpa [leaf] using hfree, ?_⟩
    have hlone : normalize [d] = [d] := normalize_of_nodup (by simp)
    rw [leaf, dependencies_mk, List.nil_append, hlone, setDependencies]
  exact ((Reachable.new hnew).addDependency hd hbuilt).withOptional o

/-- Of scopes that can be made, the one that comes of joining a dependency is a least upper bound for
containment: it is satisfied by just those scopes that satisfy both the scope as it was and its value
with this dependency alone. So it satisfies all that the scope satisfied before. The same is true of
any list of dependencies. -/
theorem satisfies_join_iff (x s : Scope) (o : Bool) (hx : x.Reachable) (hs : s.Reachable) :
    (∀ d s', d.Reachable → s.addDependency d = .ok s' →
      (mk s.value o [d]).Reachable ∧
      (x.satisfies s' = true ↔
        x.satisfies s = true ∧ x.satisfies (mk s.value o [d]) = true) ∧
      ∀ y, s.satisfies y = true → s'.satisfies y = true) ∧
    ∀ ds s', (∀ d ∈ ds, d.Reachable) → s.addDependencies ds = .ok s' →
      (x.satisfies s' = true ↔
        x.satisfies s = true ∧ ∀ d ∈ ds, x.satisfies (mk s.value o [d]) = true) ∧
      ∀ y, s.satisfies y = true → s'.satisfies y = true := by
  have htidy : x.Tidy := hx.wellFormed.tidy
  have hown : s.Tidy := hs.wellFormed.tidy
  constructor
  · intro d s' hd h
    have hlist : s.addDependencies [d] = .ok s' := (addDependency_eq hown d).symm.trans h
    have hds : ∀ e ∈ [d], e.Tidy := List.forall_mem_singleton.2 hd.wellFormed.tidy
    refine ⟨hs.singleton hd h o, ?_, fun y hy => satisfies_of_addDependencies hown hds hlist hy⟩
    rw [satisfies_addDependencies_iff htidy o hlist, List.forall_mem_singleton]
  · intro ds s' hreachable h
    have hds : ∀ d ∈ ds, d.Tidy := fun d hd => (hreachable d hd).wellFormed.tidy
    exact ⟨satisfies_addDependencies_iff htidy o h,
      fun y hy => satisfies_of_addDependencies hown hds h hy⟩

def joinTarget : Scope :=
  mk "a" false [mk "b" false [leaf "c" true, leaf "d" false]]

/-- A dependency that is merged at two levels with one of the scope. -/
def joinPart : Scope :=
  mk "b" true [mk "c" false [leaf "e" false], leaf "f" false]

def joined : Scope :=
  mk "a" false [mk "b" false [mk "c" false [leaf "e" false], leaf "d" false, leaf "f" false]]

/-- A scope that satisfies both. -/
def joinBound : Scope :=
  mk "a" true [leaf "g" false, mk "b" false [leaf "f" false, leaf "d" false,
    mk "c" true [leaf "e" false]]]

/-- The dependency is merged at two levels with one that is already there. Neither of the two alone
makes up the joined scope, and what satisfies both satisfies it. -/
theorem satisfies_join_iff_of_merged :
    joinTarget.Reachable ∧ joinPart.Reachable ∧
    joinTarget.addDependency joinPart = .ok joined ∧
    joinBound.satisfies joined = true ∧ joined.satisfies joinTarget = true := by
  have hread : Scope.parse "a[b[*c d]] *b[c[e] f] *a[g b[f d *c[e]]]" =
      .ok [joinTarget, joinPart, joinBound] := by cbv
  have hall := fun s hs => Reachable.parse (s := s) hread hs
  simp only [List.forall_mem_cons] at hall
  obtain ⟨hs, hd, hx, -⟩ := hall
  have hjoin : joinTarget.addDependency joinPart = .ok joined := by
    rw [addDependency_eq_match]
    cbv
  obtain ⟨-, hleast, hupper⟩ := (satisfies_join_iff _ _ false hx hs).1 _ _ hd hjoin
  refine ⟨hs, hd, hjoin, hleast.2 ⟨?_, ?_⟩, hupper _ ?_⟩
  all_goals decide +kernel

end ScopeGrant.Scope
