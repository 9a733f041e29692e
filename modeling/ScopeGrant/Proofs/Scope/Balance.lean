import ScopeGrant.Proofs.Scope.Bracket

/-!
# Matching brackets

Two brackets belong together if the text between them is balanced. A bracket that closes more than a
text has opened closes a bracket before it (`closes_of_openBrackets_neg`), so each bracket that
opens in a balanced text is closed in it. A text that closes no more than it opens is cut by the
brackets that it leaves open into balanced texts (`LeftOpen`), and the last one of them tells where
the innermost of these brackets stands (`eq_of_append_opening`).
-/

namespace ScopeGrant.Scope

/-- Each bracket of the text is opened and closed in it. -/
structure Balanced (text : List Char) : Prop where
  open_eq : openBrackets text = 0
  nonneg : ∀ start, start <+: text → 0 ≤ openBrackets start

/-- A bracket that opens directly before the text is closed in it. -/
def Closes (text : List Char) : Prop :=
  ∃ inner, Balanced inner ∧ inner ++ [']'] <+: text

theorem prefix_append_cases {start xs ys : List Char} (h : start <+: xs ++ ys) :
    start <+: xs ∨ ∃ more, start = xs ++ more ∧ more <+: ys := by
  obtain ⟨rest, hrest⟩ := h
  rcases List.append_eq_append_iff.1 hrest with ⟨more, hxs, -⟩ | ⟨more, hstart, hys⟩
  · exact Or.inl ⟨more, hxs.symm⟩
  · exact Or.inr ⟨more, hstart, rest, hys.symm⟩

theorem Unbracketed.balanced {text : List Char} (h : Unbracketed text) : Balanced text := by
  refine ⟨h.openBrackets_eq, fun start hstart => ?_⟩
  have hnone : Unbracketed start :=
    ⟨fun hmem => h.1 (hstart.subset hmem), fun hmem => h.2 (hstart.subset hmem)⟩
  exact Int.le_of_eq hnone.openBrackets_eq.symm

theorem balanced_nil : Balanced [] :=
  Unbracketed.balanced (by simp [Unbracketed])

namespace Balanced

variable {text xs ys : List Char}

theorem append (hx : Balanced xs) (hy : Balanced ys) : Balanced (xs ++ ys) := by
  refine ⟨by rw [openBrackets_append, hx.open_eq, hy.open_eq, Int.add_zero], fun start h => ?_⟩
  rcases prefix_append_cases h with hstart | ⟨more, rfl, hmore⟩
  · exact hx.nonneg start hstart
  · rw [openBrackets_append, hx.open_eq, Int.zero_add]
    exact hy.nonneg more hmore

/-- With brackets around it a balanced text is balanced. -/
theorem enclose (h : Balanced text) : Balanced ('[' :: (text ++ [']'])) := by
  refine ⟨by simp [h.open_eq], fun start hstart => ?_⟩
  rcases List.prefix_cons_iff.1 hstart with rfl | ⟨inner, rfl, hinner⟩
  · exact Int.le_refl 0
  rw [openBrackets_opening]
  rcases prefix_append_cases hinner with hinner | ⟨more, rfl, hmore⟩
  · have hpos := h.nonneg inner hinner
    omega
  · rcases List.prefix_cons_iff.1 hmore with rfl | ⟨rest, rfl, hrest⟩
    · rw [List.append_nil, h.open_eq]
      decide
    · rw [List.prefix_nil.1 hrest, openBrackets_append, h.open_eq]
      decide

theorem not_closes (h : Balanced text) : ¬ Closes text := by
  rintro ⟨inner, hinner, hclosed⟩
  have hpos := h.nonneg _ hclosed
  rw [openBrackets_append, hinner.open_eq] at hpos
  exact absurd hpos (by decide)

end Balanced

/-- The first bracket that closes more than a text has opened closes what stands before it. -/
theorem closes_of_openBrackets_neg {text start : List Char} (hstart : start <+: text)
    (hneg : openBrackets start < 0) : Closes text := by
  induction text using List.reverseRecOn generalizing start with
  | nil =>
    rw [List.prefix_nil.1 hstart] at hneg
    exact absurd hneg (by decide)
  | append_singleton text c ih =>
    have hkeep : Closes text → Closes (text ++ [c]) := fun ⟨inner, hinner, hclosed⟩ =>
      ⟨inner, hinner, hclosed.trans (List.prefix_append _ _)⟩
    by_cases hearlier : ∀ start, start <+: text → 0 ≤ openBrackets start
    swap
    · obtain ⟨start', hnot⟩ := Classical.not_forall.1 hearlier
      obtain ⟨hstart', hneg'⟩ := Classical.not_imp.1 hnot
      exact hkeep (ih hstart' (Int.not_le.1 hneg'))
    rcases prefix_append_cases hstart with hstart | ⟨more, rfl, hmore⟩
    · exact absurd hneg (Int.not_lt.2 (hearlier start hstart))
    -- the text has not closed too much before its last character, so this is the bracket
    have htext := hearlier text (List.prefix_refl _)
    rcases List.prefix_cons_iff.1 hmore with rfl | ⟨rest, rfl, hrest⟩
    · rw [List.append_nil] at hneg
      omega
    rw [List.prefix_nil.1 hrest, openBrackets_append] at hneg
    have hc : c = ']' := by
      by_contra hc
      have hnone : [c].count ']' = 0 :=
        List.count_eq_zero_of_not_mem fun hmem => hc (List.mem_singleton.1 hmem).symm
      rw [openBrackets, openBrackets, hnone] at hneg
      rw [openBrackets] at htext
      omega
    subst hc
    rw [openBrackets_closing] at hneg
    exact ⟨text, ⟨by omega, hearlier⟩, List.prefix_refl _⟩

/-- Each bracket that opens in a balanced text is closed behind it. -/
theorem Balanced.closes {xs ys : List Char} (h : Balanced (xs ++ '[' :: ys)) : Closes ys := by
  have hxs := h.nonneg xs (List.prefix_append _ _)
  have hopen := h.open_eq
  rw [openBrackets_append, openBrackets_opening] at hopen
  exact closes_of_openBrackets_neg (List.prefix_refl ys) (by omega)

/-- The innermost bracket that a text leaves open is told by what follows it. -/
theorem eq_of_append_opening {xs ys xs' ys' : List Char} (h : xs ++ '[' :: ys = xs' ++ '[' :: ys')
    (hys : Balanced ys) (hys' : Balanced ys') : xs = xs' ∧ ys = ys' := by
  -- otherwise one of the brackets would stand in the text behind the other, where it is closed
  rcases List.append_eq_append_iff.1 h with ⟨more, hxs, hrest⟩ | ⟨more, hxs, hrest⟩
  · rcases List.cons_eq_append_iff.1 hrest with ⟨rfl, hcons⟩ | ⟨inner, rfl, rfl⟩
    · exact ⟨by simpa using hxs.symm, (List.cons.inj hcons).2.symm⟩
    · exact absurd hys.closes hys'.not_closes
  · rcases List.cons_eq_append_iff.1 hrest with ⟨rfl, hcons⟩ | ⟨inner, rfl, rfl⟩
    · exact ⟨by simpa using hxs, (List.cons.inj hcons).2⟩
    · exact absurd hys'.closes hys.not_closes

/-- The brackets at these byte offsets are left open by the text, innermost first. -/
inductive LeftOpen : List Nat → List Char → Prop where
  | none {text : List Char} (h : Balanced text) : LeftOpen [] text
  | bracket {places : List Nat} {outer inner : List Char} (h : LeftOpen places outer)
      (hinner : Balanced inner) :
      LeftOpen ((String.ofList outer).utf8ByteSize :: places) (outer ++ '[' :: inner)

namespace LeftOpen

variable {place : Nat} {places : List Nat} {text more : List Char}

theorem append (h : LeftOpen places text) (hmore : Balanced more) :
    LeftOpen places (text ++ more) := by
  cases h with
  | none h => exact .none (h.append hmore)
  | bracket h hinner =>
    rw [List.append_assoc, List.cons_append]
    exact .bracket h (hinner.append hmore)

theorem opening (h : LeftOpen places text) :
    LeftOpen ((String.ofList text).utf8ByteSize :: places) (text ++ ['[']) :=
  .bracket h balanced_nil

theorem closing (h : LeftOpen (place :: places) text) : LeftOpen places (text ++ [']']) := by
  cases h with
  | bracket h hinner =>
    rw [List.append_assoc, List.cons_append]
    exact h.append hinner.enclose

end LeftOpen

end ScopeGrant.Scope
