import ScopeGrant.Proofs.Scope.Chain
import ScopeGrant.Scope.Equality
import Mathlib.Data.List.Forall2
import Mathlib.Data.String.Basic

/-!
# Equality is equality of ordered trees

The stored order of dependencies carries no meaning. `ordered` puts every list of a tree in the
order of its values, which picks one tree out of those that differ in nothing but stored order: two
scopes are equal exactly if their ordered trees are the same (`equal_iff`).
-/

namespace ScopeGrant.Scope

/-! ## Ordered trees -/

/-- The tree with each list of dependencies in the order of values. -/
def ordered : Scope → Scope :=
  regroup (·.mergeSort valueLE)

@[simp] theorem value_ordered (s : Scope) : s.ordered.value = s.value :=
  value_regroup _ s

@[simp] theorem optional_ordered (s : Scope) : s.ordered.optional = s.optional := by
  cases s with
  | mk v o ds => rw [ordered, regroup_mk, optional_mk, optional_mk]

theorem mergeSort_map_ordered (ds : List Scope) :
    (ds.map ordered).mergeSort valueLE = (ds.mergeSort valueLE).map ordered := by
  refine (List.map_mergeSort fun a _ b _ => ?_).symm
  rw [valueLE, valueLE, value_ordered, value_ordered]

theorem dependencies_ordered (s : Scope) : s.ordered.dependencies = s.sorted.map ordered := by
  rw [ordered, dependencies_regroup]
  exact mergeSort_map_ordered s.dependencies

theorem ordered_eq (s : Scope) : s.ordered = mk s.value s.optional (s.sorted.map ordered) := by
  rw [← s.ordered.mk_eta, value_ordered, optional_ordered, dependencies_ordered]

theorem pairwise_sorted (s : Scope) : s.sorted.Pairwise fun a b => valueLE a b := by
  refine List.pairwise_mergeSort (fun a b c => ?_) (fun a b => ?_) s.dependencies
  · simp only [valueLE, decide_eq_true_eq]
    exact le_trans
  · simp only [valueLE, Bool.or_eq_true, decide_eq_true_eq]
    exact le_total _ _

/-- Sorting the dependencies of an ordered tree changes nothing. -/
theorem sorted_ordered (s : Scope) : s.ordered.sorted = s.sorted.map ordered := by
  rw [sorted, dependencies_ordered, mergeSort_map_ordered,
    List.mergeSort_of_pairwise s.pairwise_sorted]

theorem ordered_ordered (s : Scope) : s.ordered.ordered = s.ordered := by
  induction s with
  | mk v o ds ih =>
    rw [ordered_eq (ordered _), sorted_ordered, List.map_map, ordered_eq, value_mk, optional_mk]
    refine congrArg _ (List.map_congr_left fun d hd => ?_)
    exact ih d (mem_sorted.1 hd)

/-- Ordering keeps the chains of a list. -/
theorem chain_ordered {s : Scope} {p : List String} : Chain [s.ordered] p ↔ Chain [s] p := by
  refine chain_map_regroup (fun ds q => ?_) [s] p
  cases q with
  | nil => simp
  | cons v q => simp only [chain_cons, List.mem_mergeSort]

/-! ## Equality -/

theorem equalLoop_append (xs ys : List (Scope × Scope)) :
    equalLoop (xs ++ ys) = (equalLoop xs && equalLoop ys) := by
  fun_induction equalLoop xs with
  | case1 => rfl
  | case2 a b rest hab ih =>
    rw [List.cons_append, equalLoop, if_pos hab, ← List.append_assoc, ih]
  | case3 a b rest hab => rw [List.cons_append, equalLoop, if_neg hab, Bool.false_and]

theorem equalLoop_eq_all (pairs : List (Scope × Scope)) :
    equalLoop pairs = pairs.all fun p => p.1.equal p.2 := by
  induction pairs with
  | nil => rw [equalLoop, List.all_nil]
  | cons p pairs ih =>
    rw [← List.singleton_append, equalLoop_append, ih, List.all_append, List.all_cons, List.all_nil,
      Bool.and_true]
    rfl

/-- Equality, from that of the dependencies in the order of their values. -/
theorem equal_iff_forall₂ {a b : Scope} :
    a.equal b = true ↔
      a.value = b.value ∧ a.optional = b.optional ∧
        List.Forall₂ (fun d e => d.equal e = true) a.sorted b.sorted := by
  rw [equal, equalLoop, List.append_nil, List.forall₂_iff_zip, length_sorted, length_sorted]
  split
  · rename_i h
    obtain ⟨⟨hvalue, hoptional⟩, hlength⟩ := by simpa using h
    simp only [hvalue, hoptional, hlength, true_and, equalLoop_eq_all, List.all_eq_true,
      Prod.forall]
  · rename_i h
    simp only [Bool.and_eq_true, beq_iff_eq, not_and, and_imp] at h
    simp only [Bool.false_eq_true, false_iff, not_and]
    exact fun hvalue hoptional hlength => absurd hlength (h hvalue hoptional)

/-- Two scopes are equal exactly if they are the same tree once every list is ordered. -/
theorem equal_iff {a b : Scope} : a.equal b = true ↔ a.ordered = b.ordered := by
  induction a generalizing b with
  | mk v o ds ih =>
    have hbelow : ∀ d ∈ (mk v o ds).sorted, ∀ e, d.equal e = true ↔ d.ordered = e.ordered :=
      fun d hd e => ih d (mem_sorted.1 hd)
    have hsame : List.Forall₂ (fun d e => d.equal e = true) (mk v o ds).sorted b.sorted ↔
        List.Forall₂ (fun d e => d.ordered = e.ordered) (mk v o ds).sorted b.sorted := by
      simp only [List.forall₂_iff_zip]
      refine and_congr_right fun _ => forall_congr' fun d => forall_congr' fun e => ?_
      exact imp_congr_right fun hde => hbelow d (List.of_mem_zip hde).1 e
    -- the sorted lists agree scope by scope exactly if they become the same list once ordered
    rw [equal_iff_forall₂, hsame, ordered_eq, ordered_eq, mk.injEq, ← List.forall₂_eq_eq_eq,
      List.forall₂_map_left_iff, List.forall₂_map_right_iff]

theorem equal_ordered (s : Scope) : s.ordered.equal s = true :=
  equal_iff.2 s.ordered_ordered

end ScopeGrant.Scope
