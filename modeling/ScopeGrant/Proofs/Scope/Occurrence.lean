import Mathlib
import ScopeGrant.Proofs.Scope.Acceptance

/-!
# What the merged trees keep of the written ones

A written tree may have several scopes along one row of values; `occurrences` lists them, one for
each place where they stand. Reading merges them level by level, from the innermost brackets
outwards, and opens a merged list again only if it has taken in another one. What comes of it can be
said without this order of work: the tree that is read has a scope along just those rows of values
along which the written tree has one, it has only one there, and this one is optional if all of the
written ones are (`occurrences_of_parse`).

Which rows of values there are is a matter of chains. For the markers, a list and what merging makes
of it are compared row by row (`SameMarks`): merging the scopes of one value makes one scope of them,
whose dependencies are again a merged list (`normalize_of_value`), so the comparison goes down along
the row.
-/

namespace ScopeGrant.Scope

/-- The scopes that a row of values leads to from the list, one for each place where they stand. -/
def occurrences : List Scope → List String → List Scope
  | _, [] => []
  | ds, [v] => ds.filter (·.value == v)
  | ds, v :: w :: p => occurrences ((ds.filter (·.value == v)).flatMap dependencies) (w :: p)

theorem occurrences_append (ds es : List Scope) (p : List String) :
    occurrences (ds ++ es) p = occurrences ds p ++ occurrences es p := by
  induction p generalizing ds es with
  | nil => rfl
  | cons v p ih =>
    cases p with
    | nil => simp only [occurrences, List.filter_append]
    | cons w p => simp only [occurrences, List.filter_append, List.flatMap_append, ih]

theorem occurrences_nil (p : List String) : occurrences [] p = [] := by
  induction p with
  | nil => rfl
  | cons v p ih =>
    cases p with
    | nil => rfl
    | cons w p => exact ih

theorem occurrences_singleton (s : Scope) (v : String) (p : List String) :
    occurrences [s] (v :: p) =
      if s.value = v then if p = [] then [s] else occurrences s.dependencies p else [] := by
  by_cases hv : s.value = v
  · cases p with
    | nil => simp [occurrences, hv]
    | cons w p => simp [occurrences, hv]
  · cases p with
    | nil => simp [occurrences, hv]
    | cons w p => simp [occurrences, hv, occurrences_nil]

/-- A row of values leads to a scope exactly if it is a chain. -/
theorem occurrences_ne_nil_iff {ds : List Scope} {p : List String} :
    occurrences ds p ≠ [] ↔ p ≠ [] ∧ Chain ds p := by
  induction p generalizing ds with
  | nil => simp [occurrences]
  | cons v p ih =>
    have hcons : v :: p ≠ [] := List.cons_ne_nil v p
    cases p with
    | nil => simp [occurrences, chain_cons]
    | cons w p =>
      have hbelow : Chain ((ds.filter (·.value == v)).flatMap dependencies) (w :: p) ↔
          Chain ds (v :: w :: p) := by
        simp only [chain_cons, List.mem_flatMap, List.mem_filter, beq_iff_eq]
        constructor
        · rintro ⟨e, ⟨d, ⟨hd, hv⟩, he⟩, hw, hp⟩
          exact ⟨d, hd, hv, e, he, hw, hp⟩
        · rintro ⟨d, hd, hv, e, he, hw, hp⟩
          exact ⟨e, ⟨d, ⟨hd, hv⟩, he⟩, hw, hp⟩
      rw [occurrences, ih, hbelow]
      simp only [hcons, ne_eq, List.cons_ne_nil, not_false_eq_true]

/-! ## One scope for each row of values -/

theorem filter_value_of_nodup {ds : List Scope} (h : (ds.map value).Nodup) (v : String) :
    ds.filter (·.value == v) = [] ∨ ∃ d ∈ ds, ds.filter (·.value == v) = [d] := by
  have hnodup := h.sublist ((ds.filter_sublist (p := (·.value == v))).map value)
  have hmem : ∀ d ∈ ds.filter (·.value == v), d ∈ ds ∧ d.value = v :=
    fun d hd => ⟨(List.mem_filter.1 hd).1, value_of_mem_filter hd⟩
  cases hfilter : ds.filter (·.value == v) with
  | nil => exact Or.inl rfl
  | cons d rest =>
    rw [hfilter] at hnodup hmem
    cases rest with
    | nil => exact Or.inr ⟨d, (hmem d (List.mem_cons_self ..)).1, rfl⟩
    | cons e rest =>
      have hsame : e.value = d.value := (hmem e (by simp)).2.trans (hmem d (by simp)).2.symm
      simp [hsame] at hnodup

/-- Where siblings differ, a row of values leads to one scope at most. -/
theorem length_occurrences_le_one {ds : List Scope} (h : TidyList ds) (p : List String) :
    (occurrences ds p).length ≤ 1 := by
  induction p generalizing ds with
  | nil => exact Nat.zero_le 1
  | cons v p ih =>
    rcases filter_value_of_nodup h.1 v with hnone | ⟨d, hd, hone⟩
    · cases p with
      | nil =>
        rw [occurrences, hnone]
        exact Nat.zero_le 1
      | cons w p =>
        rw [occurrences, hnone, List.flatMap_nil, occurrences_nil]
        exact Nat.zero_le 1
    · cases p with
      | nil =>
        rw [occurrences, hone]
        exact Nat.le_refl 1
      | cons w p =>
        rw [occurrences, hone, List.flatMap_singleton]
        exact ih (tidy_iff.1 (h.2 d hd))

/-! ## Markers -/

/-- Along each row of values, the scopes of one list are all optional exactly if those of the other
list are. -/
def SameMarks (ds es : List Scope) : Prop :=
  ∀ p, (∀ d ∈ occurrences ds p, d.optional = true) ↔ ∀ e ∈ occurrences es p, e.optional = true

namespace SameMarks

variable {ds es fs : List Scope}

theorem trans (h : SameMarks ds es) (h' : SameMarks es fs) : SameMarks ds fs :=
  fun p => (h p).trans (h' p)

theorem append {ds' es' : List Scope} (h : SameMarks ds es) (h' : SameMarks ds' es') :
    SameMarks (ds ++ ds') (es ++ es') := by
  intro p
  rw [occurrences_append, occurrences_append, List.forall_mem_append, List.forall_mem_append, h p,
    h' p]

theorem map {f : Scope → Scope} (h : ∀ d ∈ ds, SameMarks [d] [f d]) : SameMarks ds (ds.map f) := by
  induction ds with
  | nil => exact fun _ => Iff.rfl
  | cons d ds ih =>
    obtain ⟨hd, hds⟩ := List.forall_mem_cons.1 h
    exact hd.append (ih hds)

theorem below (h : SameMarks ds es) (v : String) (o : Bool) :
    SameMarks [mk v o ds] [mk v o es] := by
  intro p
  cases p with
  | nil => exact Iff.rfl
  | cons w p =>
    rw [occurrences_singleton, occurrences_singleton, value_mk, value_mk]
    split
    · split
      · rw [List.forall_mem_singleton, List.forall_mem_singleton, optional_mk, optional_mk]
      · exact h p
    · exact Iff.rfl

/-- Merging lists whose trees repeat no siblings keeps the markers: a merged scope is optional if all
scopes that went into it are. -/
theorem normalize (hds : ∀ d ∈ ds, d.Tidy) : SameMarks ds (normalize ds) := by
  intro p
  induction p generalizing ds with
  | nil => exact Iff.rfl
  | cons v p ih =>
    have htidy : ∀ d ∈ ds.filter (·.value == v), d.Tidy :=
      fun d hd => hds d (List.mem_filter.1 hd).1
    cases p with
    | nil =>
      rw [occurrences, occurrences, filter_normalize]
      by_cases hnone : ds.filter (·.value == v) = []
      · rw [hnone, normalize_nil]
      · rw [normalize_of_value hnone (fun _ => value_of_mem_filter) htidy,
          List.forall_mem_singleton, optional_mk, List.all_eq_true]
    | cons w p =>
      rw [occurrences, occurrences, flatMap_dependencies_normalize hds]
      refine ih fun e he => ?_
      obtain ⟨d, hd, he⟩ := List.mem_flatMap.1 he
      exact (htidy d hd).of_mem he

theorem collapse (s : Scope) : SameMarks [s] [s.collapse] := by
  induction s with
  | mk v o ds ih =>
    have htidy : ∀ d ∈ ds.map Scope.collapse, d.Tidy := by
      intro d hd
      obtain ⟨e, -, rfl⟩ := List.mem_map.1 hd
      exact tidy_collapse e
    rw [collapse_mk]
    exact ((map ih).trans (normalize htidy)).below v o

end SameMarks

/-! ## Reading -/

/-- A tree with its repeated siblings merged has one scope along each row of values along which the
tree has scopes. It is optional if all of these are. -/
theorem occurrences_collapse (s : Scope) (p : List String) :
    (occurrences [s.collapse] p ≠ [] ↔ occurrences [s] p ≠ []) ∧
    (occurrences [s.collapse] p).length ≤ 1 ∧
    ∀ t ∈ occurrences [s.collapse] p,
      (t.optional = true ↔ ∀ u ∈ occurrences [s] p, u.optional = true) := by
  have hone := length_occurrences_le_one (tidyList_singleton.2 (tidy_collapse s)) p
  refine ⟨?_, hone, fun t ht => ?_⟩
  · rw [occurrences_ne_nil_iff, occurrences_ne_nil_iff, chain_collapse]
  · -- nothing else stands where `t` stands
    have honly : occurrences [s.collapse] p = [t] := by
      obtain ⟨t', ht'⟩ :=
        List.length_eq_one_iff.1 (Nat.le_antisymm hone (List.length_pos_of_mem ht))
      rw [ht', List.mem_singleton] at ht
      rw [ht', ht]
    rw [SameMarks.collapse s p, honly, List.forall_mem_singleton]

/-- An expression that is accepted is read as one tree for each of the terms that it writes, in the
order of writing. Along every row of values this tree has a scope exactly if the written term has
one; then it has only one, and this one is optional exactly if all of the written ones are. -/
theorem occurrences_of_parse {input : String} {scopes : List Scope}
    (h : Scope.parse input = .ok scopes) :
    (∃ ds, Expression ds input.toList) ∧
    ∀ ds, Expression ds input.toList →
      List.Forall₂ (fun d s => ∀ p,
        (occurrences [s] p ≠ [] ↔ occurrences [d] p ≠ []) ∧
        (occurrences [s] p).length ≤ 1 ∧
        ∀ t ∈ occurrences [s] p,
          (t.optional = true ↔ ∀ u ∈ occurrences [d] p, u.optional = true)) ds scopes := by
  obtain ⟨es, hes, -, -⟩ := Parser.parse_eq_ok_iff.1 h
  refine ⟨⟨es, hes⟩, fun ds hds => ?_⟩
  rw [Parser.eq_map_collapse_of_parse h hds, List.forall₂_map_right_iff, List.forall₂_same]
  exact fun d _ => occurrences_collapse d

def writtenThrice : Scope :=
  mk "a" false [mk "b" true [leaf "c" true], mk "b" true [leaf "c" false], leaf "b" true]

def readOnce : Scope :=
  mk "a" false [mk "b" true [leaf "c" false]]

/-- A scope that is written three times in brackets, once at the top level, and whose dependency is
optional in one place and required in another. -/
theorem occurrences_of_read :
    Scope.parse "a[*b[*c] *b[c] *b] a" = .ok [readOnce, leaf "a" false] ∧
    Expression [writtenThrice, leaf "a" false] "a[*b[*c] *b[c] *b] a".toList ∧
    List.Forall₂ (fun d s => ∀ p,
        (occurrences [s] p ≠ [] ↔ occurrences [d] p ≠ []) ∧
        (occurrences [s] p).length ≤ 1 ∧
        ∀ t ∈ occurrences [s] p,
          (t.optional = true ↔ ∀ u ∈ occurrences [d] p, u.optional = true))
      [writtenThrice, leaf "a" false] [readOnce, leaf "a" false] := by
  have hparse : Scope.parse "a[*b[*c] *b[c] *b] a" = .ok [readOnce, leaf "a" false] := by cbv
  have ha : IsValue "a" := by decide
  have hb : IsValue "b" := by decide
  have hc : IsValue "c" := by decide
  have hfirst : Terms [mk "b" true [leaf "c" true]] "*b[*c]".toList :=
    .block (o := true) hb isGap_nil (.plain (o := true) hc) isGap_nil
  have hsecond : Terms [mk "b" true [leaf "c" false]] "*b[c]".toList :=
    .block (o := true) hb isGap_nil (.plain (o := false) hc) isGap_nil
  have hthird : Terms [leaf "b" true] "*b".toList := .plain (o := true) hb
  have hblock : Terms [writtenThrice] "a[*b[*c] *b[c] *b]".toList :=
    .block (o := false) ha isGap_nil
      (.more hfirst isGap_space (List.cons_ne_nil _ _)
        (.more hsecond isGap_space (List.cons_ne_nil _ _) hthird)) isGap_nil
  have hexpr : Expression [writtenThrice, leaf "a" false] "a[*b[*c] *b[c] *b] a".toList :=
    .row isGap_nil (.more hblock isGap_space (List.cons_ne_nil _ _) (.plain (o := false) ha))
      isGap_nil
  exact ⟨hparse, hexpr, (occurrences_of_parse hparse).2 _ hexpr⟩

end ScopeGrant.Scope
