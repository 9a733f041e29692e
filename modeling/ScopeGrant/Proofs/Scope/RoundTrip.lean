import ScopeGrant.Proofs.Scope.Acceptance
import ScopeGrant.Proofs.Scope.Equality
import ScopeGrant.Proofs.Scope.Printer
import ScopeGrant.Proofs.Scope.Reachable

/-!
# Canonical text reads back

The canonical text of a scope is a term of the grammar, and what it writes is the ordered tree.
Since a well-formed tree repeats no siblings and has no cycles, the reader has nothing to merge and
nothing to refuse, and returns just this tree.
-/

namespace ScopeGrant.Scope

open Relation

/-! ## Well-formed scopes in order -/

theorem tidy_ordered {s : Scope} (h : s.Tidy) : s.ordered.Tidy := by
  refine tidy_map value_ordered (fun s => ?_) h
  rw [dependencies_ordered]
  exact s.sorted_perm.map Scope.ordered

theorem WellFormed.ordered {s : Scope} (h : s.WellFormed) : s.ordered.WellFormed :=
  .of_chain (fun _ hp => h.chain (chain_ordered.1 hp)) (tidy_ordered h.tidy)

/-! ## Canonical text is a row of terms -/

theorem toList_mark_append_value (s : Scope) :
    (s.mark ++ s.value).toList = heading s.value s.optional := by
  rw [String.toList_append, heading, mark]
  cases s.optional <;> rfl

/-- The canonical texts of a list are a row of terms if each one of them is a term. -/
theorem terms_renderAll {ds : List Scope} (hne : ds ≠ [])
    (h : ∀ d ∈ ds, Terms [d.ordered] d.render.toList) :
    Terms (ds.map Scope.ordered) (renderAll ds).toList := by
  have hterms := @terms_intercalate (ds.map fun d => (d.ordered, d.render)) (by simpa using hne)
    (List.forall_mem_map.2 h)
  rwa [List.map_map, List.map_map] at hterms

/-- The canonical text of a scope is a term, which writes the ordered scope. -/
theorem terms_render {s : Scope} (h : ∀ t, ReflTransGen Depends s t → IsValue t.value) :
    Terms [s.ordered] s.render.toList := by
  induction s with
  | mk v o ds ih =>
    obtain ⟨hv, hds⟩ := forall_inside_iff.1 h
    rw [render_eq, ordered_eq, String.toList_append, toList_mark_append_value]
    by_cases hnil : ds = []
    · subst hnil
      simpa [sorted, leaf] using Terms.plain (o := o) hv
    · have hne : (mk v o ds).sorted ≠ [] := sorted_eq_nil_iff.not.2 hnil
      have hbody := terms_renderAll hne fun d hd =>
        ih d (mem_sorted.1 hd) (hds d (mem_sorted.1 hd))
      have hblock := Terms.block (o := o) hv isGap_nil hbody isGap_nil
      have hempty : ¬ (mk v o ds).dependencies.isEmpty := by simpa using hnil
      rw [if_neg hempty]
      simpa using hblock

/-! ## Reading it back -/

theorem expression_renderAll {ns : List Scope} (h : ∀ n ∈ ns, n.WellFormed) :
    Expression (ns.map Scope.ordered) (renderAll ns).toList := by
  by_cases hnil : ns = []
  · subst hnil
    exact .blank isGap_nil
  · have hterms := terms_renderAll hnil fun n hn => terms_render (h n hn).values
    simpa using Expression.row isGap_nil hterms isGap_nil

/-- The canonical text of a list of well-formed scopes is read as the list of the ordered scopes. -/
theorem parse_renderAll {ns : List Scope} (h : ∀ n ∈ ns, n.WellFormed) :
    Scope.parse (renderAll ns) = .ok (ns.map Scope.ordered) := by
  have hordered : ∀ m ∈ ns.map Scope.ordered, m.WellFormed := by
    intro m hm
    obtain ⟨n, hn, rfl⟩ := List.mem_map.1 hm
    exact (h n hn).ordered
  refine Parser.parse_eq_ok_iff.2 ⟨_, expression_renderAll h, ?_, ?_⟩
  · exact clear_top_iff.2 fun m hm => (hordered m hm).acyclic
  · rw [List.map_congr_left fun m hm => collapse_of_tidy (hordered m hm).tidy, List.map_id']

/-- The canonical text of a well-formed scope is read as the ordered scope. -/
theorem parseOne_render {n : Scope} (h : n.WellFormed) :
    Scope.parseOne n.render = .ok n.ordered := by
  have hordered := h.ordered
  refine (Parser.parseOne_eq_ok_iff (terms_render h.values)).2 ⟨?_, ?_⟩
  · exact clear_top_iff.2 (List.forall_mem_singleton.2 hordered.acyclic)
  · exact (collapse_of_tidy hordered.tidy).symm

/-- Ordering a tree does not change its canonical text. -/
theorem render_ordered (s : Scope) : s.ordered.render = s.render := by
  induction s with
  | mk v o ds ih =>
    have hbelow : renderAll ((mk v o ds).sorted.map Scope.ordered) =
        renderAll (mk v o ds).sorted := by
      rw [renderAll, renderAll, List.map_map]
      refine congrArg _ (List.map_congr_left fun d hd => ?_)
      exact ih d (mem_sorted.1 hd)
    rw [render_eq, render_eq (mk v o ds), sorted_ordered, hbelow, dependencies_ordered, mark, mark,
      value_ordered, optional_ordered]
    simp only [List.isEmpty_iff, List.map_eq_nil_iff, sorted_eq_nil_iff]

/-- Any list of scopes that can be made is read back from its canonical text: there are as many
scopes, each equal to the one that was written, and their canonical text is the same. A single scope
is read back as the one scope of its text. -/
theorem parse_renderAll_of_reachable :
    (∀ ns : List Scope, (∀ n ∈ ns, n.Reachable) →
      ∃ ms, Scope.parse (renderAll ns) = .ok ms ∧
        List.Forall₂ (fun m n => m.equal n = true) ms ns ∧ renderAll ms = renderAll ns) ∧
    ∀ n : Scope, n.Reachable → ∃ m, Scope.parseOne n.render = .ok m ∧ m.equal n = true := by
  constructor
  · intro ns hns
    refine ⟨_, parse_renderAll fun n hn => (hns n hn).wellFormed, ?_, ?_⟩
    · rw [List.forall₂_map_left_iff, List.forall₂_same]
      exact fun n _ => equal_ordered n
    · rw [renderAll, renderAll, List.map_map]
      exact congrArg _ (List.map_congr_left fun n _ => render_ordered n)
  · intro n hn
    exact ⟨_, parseOne_render hn.wellFormed, equal_ordered n⟩

def storedUnsorted : Scope :=
  mk "b" true [leaf "d" false, leaf "c" true]

/-- A list with dependencies that are stored in another order than that in which they are written. -/
theorem parse_renderAll_of_read :
    (∀ n ∈ [storedUnsorted, leaf "a" false], n.Reachable) ∧
    (∃ ms, Scope.parse "*b[*c d] a" = .ok ms ∧
      List.Forall₂ (fun m n => m.equal n = true) ms [storedUnsorted, leaf "a" false] ∧
      renderAll ms = "*b[*c d] a") ∧
    ∃ m, Scope.parseOne "*b[*c d]" = .ok m ∧ m.equal storedUnsorted = true := by
  have hread : Scope.parse "*b[d *c] a" = .ok [storedUnsorted, leaf "a" false] := by cbv
  have hrender : renderAll [storedUnsorted, leaf "a" false] = "*b[*c d] a" := by cbv
  have hfirst : render storedUnsorted = "*b[*c d]" := by cbv
  have hns : ∀ n ∈ [storedUnsorted, leaf "a" false], n.Reachable := fun n hn => .parse hread hn
  have hback := parse_renderAll_of_reachable.1 _ hns
  have hone := parse_renderAll_of_reachable.2 _ (hns _ (List.mem_cons_self ..))
  rw [hrender] at hback
  rw [hfirst] at hone
  exact ⟨hns, hback, hone⟩

end ScopeGrant.Scope
