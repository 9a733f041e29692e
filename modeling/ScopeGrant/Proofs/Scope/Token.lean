import ScopeGrant.Proofs.Scope.Grammar
import Mathlib.Data.List.TakeWhile

/-!
# What the tokens of a text are

Both directions of the relation between a text and its tokens: the text of a token fits its kind and
cannot be made longer (`first_fits`, `head_afterFirst`), and a text that begins with a stretch of
one kind has this stretch as its first token (`tokensFrom_append`).
-/

namespace ScopeGrant.Token

open Scope Text

/-- The characters of a token are those that its kind allows. -/
def Fits (token : Token) : Prop :=
  match token.kind with
  | .optional => token.text.toList = ['*']
  | .opening => token.text.toList = ['[']
  | .closing => token.text.toList = [']']
  | .word => IsValue token.text
  | .space => token.text.toList ≠ [] ∧ IsGap token.text.toList

section Kind

variable {c : Char}

theorem ofChar_of_isBlank (h : isBlank c = true) : TokenKind.ofChar c = .space := by
  have hstar : c ≠ '*' := by rintro rfl; revert h; decide
  have hopen : c ≠ '[' := by rintro rfl; revert h; decide
  have hclose : c ≠ ']' := by rintro rfl; revert h; decide
  simp [TokenKind.ofChar, hstar, hopen, hclose, h]

theorem ofChar_of_not_isReserved (h : isReserved c = false) : TokenKind.ofChar c = .word := by
  obtain ⟨hblank, hstar, hopen, hclose⟩ := isReserved_eq_false h
  simp [TokenKind.ofChar, hstar, hopen, hclose, hblank]

theorem not_isReserved_of_ofChar (h : TokenKind.ofChar c = .word) : isReserved c = false := by
  unfold TokenKind.ofChar at h
  split at h
  · cases h
  split at h
  · cases h
  split at h
  · cases h
  split at h
  · cases h
  simp_all [isReserved]

end Kind

theorem toList_first_append (position : Nat) (c : Char) (rest : List Char) :
    (first position c rest).text.toList ++ afterFirst c rest = c :: rest := by
  simp [first, afterFirst, List.takeWhile_append_dropWhile]

theorem first_fits (position : Nat) (c : Char) (rest : List Char) :
    (first position c rest).Fits := by
  have hnone : ∀ k : TokenKind, (∀ x, k.goesOn x = false) → rest.takeWhile k.goesOn = [] := by
    intro k hk
    cases rest with
    | nil => rfl
    | cons x xs => simp [hk x]
  by_cases hstar : c = '*'
  · subst hstar
    simp [Fits, first, TokenKind.ofChar, hnone .optional fun _ => rfl]
  by_cases hopen : c = '['
  · subst hopen
    simp [Fits, first, TokenKind.ofChar, hnone .opening fun _ => rfl]
  by_cases hclose : c = ']'
  · subst hclose
    simp [Fits, first, TokenKind.ofChar, hnone .closing fun _ => rfl]
  by_cases hblank : isBlank c = true
  · have hkind := ofChar_of_isBlank hblank
    simp only [Fits, first, hkind, String.toList_ofList]
    refine ⟨List.cons_ne_nil _ _, fun x hx => ?_⟩
    rcases List.mem_cons.1 hx with rfl | hx
    · exact hblank
    · exact List.mem_takeWhile_imp hx
  · have hres : isReserved c = false := by simp [isReserved, hblank, hstar, hopen, hclose]
    have hkind := ofChar_of_not_isReserved hres
    simp only [Fits, first, hkind]
    refine ⟨fun h => ?_, fun x hx => ?_⟩
    · have := congrArg String.toList h
      simp at this
    · rw [String.toList_ofList] at hx
      rcases List.mem_cons.1 hx with rfl | hx
      · exact hres
      · simpa [TokenKind.goesOn] using List.mem_takeWhile_imp hx

/-- A token does not end where it could go on. -/
theorem head_afterFirst (c : Char) (rest : List Char) :
    ∀ x ∈ (afterFirst c rest).head?, (TokenKind.ofChar c).goesOn x = false := by
  intro x hx
  have h := List.head?_dropWhile_not (TokenKind.ofChar c).goesOn rest
  rw [afterFirst, Option.mem_def] at hx
  rw [hx] at h
  exact h

/-- A stretch of one kind that could not be longer is the first token. -/
theorem tokensFrom_append {kind : TokenKind} {c : Char} {cs rest : List Char} (position : Nat)
    (hkind : TokenKind.ofChar c = kind) (hcs : ∀ x ∈ cs, kind.goesOn x = true)
    (hrest : ∀ x ∈ rest.head?, kind.goesOn x = false) :
    tokensFrom position (c :: (cs ++ rest)) =
      ⟨kind, String.ofList (c :: cs), position⟩ ::
        tokensFrom (position + (String.ofList (c :: cs)).utf8ByteSize) rest := by
  have htake : rest.takeWhile kind.goesOn = [] := by
    cases rest with
    | nil => rfl
    | cons x xs => simp [hrest x (by simp)]
  have hdrop : rest.dropWhile kind.goesOn = rest := by
    cases rest with
    | nil => rfl
    | cons x xs => simp [hrest x (by simp)]
  rw [tokensFrom, first, afterFirst, hkind, List.takeWhile_append_of_pos hcs,
    List.dropWhile_append_of_pos hcs, htake, hdrop, List.append_nil]
  rfl

theorem tokensFrom_value {v : String} (hv : IsValue v) {rest : List Char} (position : Nat)
    (hrest : ∀ x ∈ rest.head?, isReserved x = true) :
    tokensFrom position (v.toList ++ rest) =
      ⟨.word, v, position⟩ :: tokensFrom (position + v.utf8ByteSize) rest := by
  cases hl : v.toList with
  | nil => exact absurd hl hv.toList_ne_nil
  | cons c cs =>
    have hmem : ∀ x ∈ c :: cs, isReserved x = false := fun x hx => hv.2 x (hl ▸ hx)
    have hof : String.ofList (c :: cs) = v := by rw [← hl, String.ofList_toList]
    rw [List.cons_append, tokensFrom_append position
      (ofChar_of_not_isReserved (hmem c (List.mem_cons_self ..)))
      (fun x hx => by simp [TokenKind.goesOn, hmem x (List.mem_cons_of_mem _ hx)])
      (fun x hx => by simp [TokenKind.goesOn, hrest x hx]), hof]

theorem tokensFrom_gap {gap rest : List Char} (hgap : IsGap gap) (hne : gap ≠ []) (position : Nat)
    (hrest : ∀ x ∈ rest.head?, isBlank x = false) :
    tokensFrom position (gap ++ rest) =
      ⟨.space, String.ofList gap, position⟩ ::
        tokensFrom (position + (String.ofList gap).utf8ByteSize) rest := by
  cases gap with
  | nil => exact absurd rfl hne
  | cons c cs =>
    exact tokensFrom_append position (ofChar_of_isBlank (hgap c (List.mem_cons_self ..)))
      (fun x hx => hgap x (List.mem_cons_of_mem _ hx)) hrest

theorem tokensFrom_mark {kind : TokenKind} {c : Char} (position : Nat) (rest : List Char)
    (hkind : TokenKind.ofChar c = kind) (hstop : ∀ x, kind.goesOn x = false) :
    tokensFrom position (c :: rest) =
      ⟨kind, String.ofList [c], position⟩ ::
        tokensFrom (position + (String.ofList [c]).utf8ByteSize) rest :=
  tokensFrom_append position hkind (List.forall_mem_nil _) fun x _ => hstop x

end ScopeGrant.Token
