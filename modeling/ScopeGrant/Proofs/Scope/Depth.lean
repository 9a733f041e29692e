import ScopeGrant.Proofs.Scope.Sibling

/-!
# Depth is the length of the longest chain

The walk that measures a tree carries the level of each pending scope and keeps the deepest level
that it has met. What it comes to is the length of the longest chain of values (`depth_le_iff`), so
whatever keeps the chains of a tree keeps its depth. A list of trees is measured by its chains as
well: it is `Shallow` if none of them is longer than a bound. Since a chain of a tree goes on as one
of its dependencies, the depth of the tree is one more than the greatest of theirs (`depth_eq`).
-/

namespace ScopeGrant.Scope

/-- No chain of the list is longer than `n`. -/
def Shallow (n : Nat) (ds : List Scope) : Prop :=
  ∀ p, Chain ds p → p.length ≤ n

theorem shallow_nil (n : Nat) : Shallow n [] := by
  intro p hp
  rw [chain_empty_iff.1 hp]
  exact Nat.zero_le n

theorem shallow_append {n : Nat} {ds es : List Scope} :
    Shallow n (ds ++ es) ↔ Shallow n ds ∧ Shallow n es := by
  simp only [Shallow, chain_append, or_imp, forall_and]

theorem shallow_cons {n : Nat} {s : Scope} {ds : List Scope} :
    Shallow n (s :: ds) ↔ Shallow n [s] ∧ Shallow n ds := by
  rw [← List.singleton_append, shallow_append]

/-- A tree has one level more than the trees that it depends on. -/
theorem shallow_singleton {n : Nat} {s : Scope} :
    Shallow n [s] ↔ ∀ p, Chain s.dependencies p → 1 + p.length ≤ n := by
  constructor
  · intro h p hp
    have hlength := h _ hp.up
    rw [List.length_cons] at hlength
    omega
  · intro h p hp
    cases p with
    | nil => exact Nat.zero_le n
    | cons v p =>
      have hlength := h p (chain_singleton.1 hp).2
      rw [List.length_cons]
      omega

theorem shallow_succ_singleton {n : Nat} {s : Scope} :
    Shallow (n + 1) [s] ↔ Shallow n s.dependencies := by
  rw [shallow_singleton, Shallow]
  refine forall₂_congr fun p _ => ?_
  omega

theorem Shallow.of_mem {n : Nat} {ds : List Scope} {d : Scope} (h : Shallow n ds) (hd : d ∈ ds) :
    Shallow n [d] :=
  fun p hp => h p (hp.of_mem hd)

theorem shallow_normalize {n : Nat} {ds : List Scope} :
    Shallow n (normalize ds) ↔ Shallow n ds := by
  simp only [Shallow, chain_normalize]

/-- A bound on chains, from bounds on what leads down from each tree of the list. -/
theorem forall_chain_length_iff {ds : List Scope} {level n : Nat} :
    (∀ p, Chain ds p → level + p.length ≤ n) ↔
      level ≤ n ∧ ∀ d ∈ ds, ∀ p, Chain d.dependencies p → level + 1 + p.length ≤ n := by
  constructor
  · intro h
    refine ⟨h [] (chain_nil ds), fun d hd p hp => ?_⟩
    have hlength := h _ (hp.up.of_mem hd)
    rw [List.length_cons] at hlength
    omega
  · rintro ⟨hlevel, h⟩ p hp
    cases p with
    | nil => exact hlevel
    | cons v p =>
      obtain ⟨d, hd, -, hp⟩ := chain_cons.1 hp
      have hlength := h d hd p hp
      rw [List.length_cons]
      omega

theorem depthLoop_le_iff {deepest n : Nat} {pending : List (Scope × Nat)} :
    depthLoop deepest pending ≤ n ↔
      deepest ≤ n ∧ ∀ x ∈ pending, ∀ p, Chain x.1.dependencies p → x.2 + p.length ≤ n := by
  fun_induction depthLoop deepest pending with
  | case1 deepest => simp
  | case2 deepest s level pending ih =>
    rw [ih, List.forall_mem_append, List.forall_mem_map, List.forall_mem_cons,
      forall_chain_length_iff, Nat.max_le, and_assoc, and_assoc]
    simp only [List.mem_reverse]

/-- The depth of a tree is the length of its longest chain. -/
theorem depth_le_iff {s : Scope} {n : Nat} : s.depth ≤ n ↔ Shallow n [s] := by
  rw [depth, depthLoop_le_iff, List.forall_mem_singleton, shallow_singleton,
    and_iff_right (Nat.zero_le n)]

/-! ## Depth by recursion -/

/-- A list is measured tree by tree. -/
theorem shallow_iff_forall_depth_le {n : Nat} {ds : List Scope} :
    Shallow n ds ↔ ∀ d ∈ ds, d.depth ≤ n := by
  induction ds with
  | nil => simp [shallow_nil]
  | cons d ds ih => rw [shallow_cons, List.forall_mem_cons, depth_le_iff, ih]

theorem depth_le_succ_iff {s : Scope} {n : Nat} :
    s.depth ≤ n + 1 ↔ ∀ d ∈ s.dependencies, d.depth ≤ n := by
  rw [depth_le_iff, shallow_succ_singleton, shallow_iff_forall_depth_le]

theorem depth_pos (s : Scope) : 0 < s.depth := by
  by_contra hzero
  have hshallow : Shallow 0 [s] := depth_le_iff.1 (Nat.le_of_not_lt hzero)
  have hlength := hshallow [s.value] (chain_nil s.dependencies).up
  simp at hlength

/-- A tree has one level more than the deepest of its dependencies. -/
theorem depth_eq (s : Scope) : s.depth = 1 + (s.dependencies.map depth).max?.getD 0 := by
  obtain ⟨n, hn⟩ : ∃ n, s.depth = n + 1 :=
    Nat.exists_eq_add_one_of_ne_zero (Nat.ne_of_gt s.depth_pos)
  have hbelow : ∀ k, n ≤ k ↔ ∀ d ∈ s.dependencies, d.depth ≤ k := by
    intro k
    rw [← depth_le_succ_iff, hn, Nat.add_le_add_iff_right]
  cases hmax : (s.dependencies.map depth).max? with
  | none =>
    have hnil := List.map_eq_nil_iff.1 (List.max?_eq_none_iff.1 hmax)
    have hzero : n ≤ 0 := (hbelow 0).2 (by simp [hnil])
    rw [hn, Option.getD_none]
    omega
  | some m =>
    have hdeepest : ∀ k, n ≤ k ↔ m ≤ k := by
      intro k
      rw [hbelow, List.max?_le_iff hmax, List.forall_mem_map]
    have hm : n = m :=
      Nat.le_antisymm ((hdeepest m).2 (Nat.le_refl m)) ((hdeepest n).1 (Nat.le_refl n))
    rw [hn, hm, Option.getD_some, Nat.add_comm]

end ScopeGrant.Scope
