import ScopeGrant.Scope.Printer

/-!
# Canonical text is a structural recursion

The loop that writes canonical text keeps the pieces still to come on a list. What it writes for a
piece does not depend on what stands before it or comes after it, so the text of a scope is its
heading followed by the texts of its dependencies in brackets (`render_eq`).
-/

namespace ScopeGrant.Scope

/-- Text in front stays in front. -/
theorem renderLoop_append_left (before written : String) (pieces : List Piece) :
    renderLoop (before ++ written) pieces = before ++ renderLoop written pieces := by
  fun_induction renderLoop written pieces with
  | case1 written => rw [renderLoop]
  | case2 written t rest ih => rw [renderLoop, String.append_assoc, ih]
  | case3 written s rest head hleaf ih =>
    rw [renderLoop, if_pos hleaf, ← ih]
    simp only [head, String.append_assoc]
  | case4 written s rest head hleaf ih =>
    rw [renderLoop, if_neg hleaf, ← ih]
    simp only [head, String.append_assoc]

theorem renderLoop_eq (written : String) (pieces : List Piece) :
    renderLoop written pieces = written ++ renderLoop "" pieces := by
  rw [← renderLoop_append_left, String.append_empty]

theorem renderLoop_append (written : String) (xs ys : List Piece) :
    renderLoop written (xs ++ ys) = renderLoop written xs ++ renderLoop "" ys := by
  rw [← renderLoop_eq]
  fun_induction renderLoop written xs with
  | case1 written => rfl
  | case2 written t rest ih => rw [List.cons_append, renderLoop, ih]
  | case3 written s rest head hleaf ih =>
    rw [List.cons_append, renderLoop, if_pos hleaf, ih]
  | case4 written s rest head hleaf ih =>
    rw [List.cons_append, renderLoop, if_neg hleaf, ← ih, List.append_assoc, List.cons_append]

/-- A text is written as it stands, whatever comes after it. -/
theorem renderLoop_text (t : String) (rest : List Piece) :
    renderLoop "" (.text t :: rest) = t ++ renderLoop "" rest := by
  rw [renderLoop, String.empty_append, renderLoop_eq]

/-- What is written for a scope is its own text, whatever comes after it. -/
theorem renderLoop_scope (s : Scope) (rest : List Piece) :
    renderLoop "" (.scope s :: rest) = s.render ++ renderLoop "" rest :=
  renderLoop_append "" [.scope s] rest

theorem renderAll_cons {s : Scope} {ds : List Scope} (hds : ds ≠ []) :
    renderAll (s :: ds) = s.render ++ " " ++ renderAll ds := by
  rw [renderAll, List.map_cons, String.intercalate_cons_of_ne_nil (by simpa using hds)]
  rfl

/-- A row of scopes comes out as their texts with single spaces between them. -/
theorem renderLoop_row (ds : List Scope) : renderLoop "" (Piece.row ds) = renderAll ds := by
  induction ds with
  | nil => rw [Piece.row_nil, renderLoop]; rfl
  | cons d ds ih =>
    cases ds with
    | nil => rw [renderAll, List.map_singleton, String.intercalate_singleton]; rfl
    | cons e ds =>
      rw [Piece.row_cons_cons, renderLoop_scope, renderLoop_text, ih,
        renderAll_cons (List.cons_ne_nil _ _), String.append_assoc]

/-- The canonical text of a scope, from those of its dependencies. -/
theorem render_eq (s : Scope) :
    s.render =
      s.mark ++ s.value ++
        if s.dependencies.isEmpty then "" else "[" ++ renderAll s.sorted ++ "]" := by
  rw [render, renderLoop]
  by_cases hleaf : s.dependencies.isEmpty
  · rw [if_pos hleaf, if_pos hleaf, renderLoop]
    simp only [String.empty_append, String.append_empty]
  · rw [if_neg hleaf, if_neg hleaf, renderLoop_eq, renderLoop_append, renderLoop_row,
      renderLoop_text, renderLoop]
    simp only [String.empty_append, String.append_empty, String.append_assoc]

end ScopeGrant.Scope
