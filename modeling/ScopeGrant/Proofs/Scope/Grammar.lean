import ScopeGrant.Scope.Basic
import ScopeGrant.Scope.Token

/-!
# The grammar of scope expressions

`Terms ds text` relates a text to the trees that it writes down, exactly as they stand there:
repeated siblings are kept, and so are cycles. The reader of expressions is measured against this
relation. A single term is a row of one.
-/

namespace ScopeGrant.Scope

open Text

/-- A text that can stand as a value: it is not empty and holds no reserved character. -/
def IsValue (v : String) : Prop :=
  v ≠ "" ∧ ∀ c ∈ v.toList, isReserved c = false

instance : DecidablePred IsValue := fun v =>
  decidable_of_iff (v ≠ "" ∧ (v.toList.all fun c => !isReserved c) = true) (by simp [IsValue])

/-- Blank text, or none. -/
def IsGap (text : List Char) : Prop :=
  ∀ c ∈ text, isBlank c = true

/-- A value with the star directly before it if it is optional. -/
def heading (v : String) (o : Bool) : List Char :=
  (if o then ['*'] else []) ++ v.toList

/-- The text is a row of one or more terms with blank text between them, which writes the trees. -/
inductive Terms : List Scope → List Char → Prop where
  /-- A value without brackets. -/
  | plain {v : String} {o : Bool} (hv : IsValue v) : Terms [leaf v o] (heading v o)
  /-- A value with a row of terms in brackets, which may begin and end with blank text. -/
  | block {v : String} {o : Bool} {ds : List Scope} {before body after : List Char} (hv : IsValue v)
      (hbefore : IsGap before) (h : Terms ds body) (hafter : IsGap after) :
      Terms [mk v o ds] (heading v o ++ '[' :: (before ++ body ++ after) ++ [']'])
  /-- A term, blank text and the terms that follow. -/
  | more {t : Scope} {ts : List Scope} {text gap rest : List Char} (h : Terms [t] text)
      (hgap : IsGap gap) (hne : gap ≠ []) (hrest : Terms ts rest) :
      Terms (t :: ts) (text ++ gap ++ rest)

/-- The text is an expression, which writes the trees: a row of terms that may begin and end with
blank text, or no term at all. -/
inductive Expression : List Scope → List Char → Prop where
  /-- Blank text writes nothing. -/
  | blank {text : List Char} (h : IsGap text) : Expression [] text
  /-- A row of terms. -/
  | row {ds : List Scope} {before body after : List Char} (hbefore : IsGap before)
      (h : Terms ds body) (hafter : IsGap after) : Expression ds (before ++ body ++ after)

theorem isGap_nil : IsGap [] := by
  simp [IsGap]

theorem IsGap.append {xs ys : List Char} (hx : IsGap xs) (hy : IsGap ys) : IsGap (xs ++ ys) := by
  intro c hc
  rcases List.mem_append.1 hc with hc | hc
  · exact hx c hc
  · exact hy c hc

theorem isReserved_of_isBlank {c : Char} (h : isBlank c = true) : isReserved c = true := by
  simp [isReserved, h]

/-- Before a gap, or before a reserved character, a value ends. -/
theorem isReserved_head_gap {gap rest : List Char} (hgap : IsGap gap)
    (hrest : gap = [] → ∀ c ∈ rest.head?, isReserved c = true) :
    ∀ c ∈ (gap ++ rest).head?, isReserved c = true := by
  cases gap with
  | nil => exact hrest rfl
  | cons x xs =>
    intro c hc
    obtain rfl : x = c := by simpa using hc
    exact isReserved_of_isBlank (hgap x (List.mem_cons_self ..))

theorem isReserved_eq_false {c : Char} (h : isReserved c = false) :
    isBlank c = false ∧ c ≠ '*' ∧ c ≠ '[' ∧ c ≠ ']' := by
  simpa [isReserved, and_assoc] using h

theorem IsValue.toList_ne_nil {v : String} (hv : IsValue v) : v.toList ≠ [] := by
  intro h
  exact hv.1 (String.toList_eq_nil_iff.1 h)

/-- A heading begins with a star or a character of the value. -/
theorem exists_heading_eq_cons {v : String} (hv : IsValue v) (o : Bool) :
    ∃ c tail, heading v o = c :: tail ∧ isBlank c = false := by
  cases o with
  | true => exact ⟨'*', v.toList, rfl, by decide⟩
  | false =>
    cases hl : v.toList with
    | nil => exact absurd hl hv.toList_ne_nil
    | cons c tail => exact ⟨c, tail, hl, (isReserved_eq_false (hv.2 c (by simp [hl]))).1⟩

theorem Terms.ne_nil {ds : List Scope} {text : List Char} (h : Terms ds text) : ds ≠ [] := by
  cases h <;> exact List.cons_ne_nil _ _

/-- A row of terms does not begin with blank text. -/
theorem Terms.exists_eq_cons {ds : List Scope} {text : List Char} (h : Terms ds text) :
    ∃ c tail, text = c :: tail ∧ isBlank c = false := by
  induction h with
  | plain hv => exact exists_heading_eq_cons hv _
  | block hv _ _ _ _ =>
    obtain ⟨c, tail, hheading, hc⟩ := exists_heading_eq_cons hv _
    exact ⟨c, _, by rw [hheading, List.cons_append, List.cons_append], hc⟩
  | more _ _ _ _ ih _ =>
    obtain ⟨c, tail, rfl, hc⟩ := ih
    exact ⟨c, _, by rw [List.cons_append, List.cons_append], hc⟩

theorem Terms.head {ds : List Scope} {text : List Char} (h : Terms ds text) (rest : List Char) :
    ∀ c ∈ (text ++ rest).head?, isBlank c = false := by
  obtain ⟨c, tail, rfl, hc⟩ := h.exists_eq_cons
  simpa using hc

/-- A term may follow a row of terms at its end as well. -/
theorem Terms.snoc {ds : List Scope} {text gap : List Char} (h : Terms ds text) (hgap : IsGap gap)
    (hne : gap ≠ []) {t : Scope} {term : List Char} (ht : Terms [t] term) :
    Terms (ds ++ [t]) (text ++ gap ++ term) := by
  induction h with
  | plain hv => exact .more (.plain hv) hgap hne ht
  | block hv hbefore h hafter _ => exact .more (.block hv hbefore h hafter) hgap hne ht
  | more h hgap' hne' _ _ ih =>
    have hmore := Terms.more h hgap' hne' ih
    simpa only [List.append_assoc, List.cons_append] using hmore

/-- An expression that writes something may stand in brackets behind a value. -/
theorem Expression.bracketed {v : String} {ds : List Scope} {text : List Char}
    (h : Expression ds text) (hne : ds ≠ []) (hv : IsValue v) (o : Bool) :
    Terms [mk v o ds] (heading v o ++ '[' :: text ++ [']']) := by
  cases h with
  | blank _ => exact absurd rfl hne
  | row hbefore hbody hafter => exact .block hv hbefore hbody hafter

theorem isGap_space : IsGap " ".toList :=
  List.forall_mem_singleton.2 rfl

/-- Texts of terms with single spaces between them are a row of terms. -/
theorem terms_intercalate {terms : List (Scope × String)} (hne : terms ≠ [])
    (h : ∀ term ∈ terms, Terms [term.1] term.2.toList) :
    Terms (terms.map Prod.fst) (" ".intercalate (terms.map Prod.snd)).toList := by
  induction terms with
  | nil => exact absurd rfl hne
  | cons term terms ih =>
    obtain ⟨hterm, hterms⟩ := List.forall_mem_cons.1 h
    by_cases hnil : terms = []
    · subst hnil
      rwa [List.map_singleton, List.map_singleton, String.intercalate_singleton]
    · rw [List.map_cons, List.map_cons, String.intercalate_cons_of_ne_nil (by simpa using hnil),
        String.toList_append, String.toList_append]
      exact .more hterm isGap_space (List.cons_ne_nil _ _) (ih hnil hterms)

end ScopeGrant.Scope
