import Mathlib
import ScopeGrant.Proofs.Checked.Token

/-!
# The one way to cut a text into tokens

Tokens cut a text up if their texts, put together, are the text, each of them stands where the texts
before it end and has the characters that its kind allows, and no two words and no two blank
stretches stand directly behind one another. The scan makes such a cut. It is the only one: the
first character of a token tells its kind, and where the token may end is then settled by what may
not stand behind it.
-/

namespace ScopeGrant.Token

open Scope Text

/-- Each token stands where the texts before it end, and the first one at `position`. -/
def Placed (position : Nat) (tokens : List Token) : Prop :=
  ∀ before token after, tokens = before ++ token :: after →
    token.position = position + (String.join (before.map text)).utf8ByteSize

/-- The tokens are not both words, nor both blank stretches. -/
def Apart (a b : Token) : Prop :=
  ¬ (a.kind = .word ∧ b.kind = .word) ∧ ¬ (a.kind = .space ∧ b.kind = .space)

/-- The tokens cut up a text whose first character stands at `position`. -/
structure CutsFrom (position : Nat) (chars : List Char) (tokens : List Token) : Prop where
  whole : tokens.flatMap (·.text.toList) = chars
  placed : Placed position tokens
  fits : ∀ token ∈ tokens, token.Fits
  apart : tokens.IsChain Apart

theorem placed_nil (position : Nat) : Placed position [] := by
  intro before token after h
  simp at h

theorem placed_cons {position : Nat} {token : Token} {tokens : List Token} :
    Placed position (token :: tokens) ↔
      token.position = position ∧ Placed (position + token.text.utf8ByteSize) tokens := by
  constructor
  · intro h
    refine ⟨h [] token tokens rfl, fun before other after heq => ?_⟩
    have hother := h (token :: before) other after (by rw [heq, List.cons_append])
    rw [List.map_cons, String.join_cons, String.utf8ByteSize_append] at hother
    rw [hother, Nat.add_assoc]
  · rintro ⟨hposition, hplaced⟩ before other after heq
    cases before with
    | nil =>
      obtain ⟨rfl, -⟩ := List.cons.inj heq
      exact hposition
    | cons earlier before =>
      obtain ⟨rfl, hrest⟩ := List.cons.inj heq
      rw [hplaced before other after hrest, List.map_cons, String.join_cons,
        String.utf8ByteSize_append, Nat.add_assoc]

/-! ## What a token tells -/

theorem isBlank_of_ofChar {c : Char} (h : TokenKind.ofChar c = .space) : isBlank c = true := by
  by_contra hblank
  unfold TokenKind.ofChar at h
  rw [if_neg hblank] at h
  split_ifs at h

theorem Fits.toList_ne_nil {token : Token} (h : token.Fits) : token.text.toList ≠ [] := by
  unfold Fits at h
  cases hkind : token.kind <;> rw [hkind] at h
  case word => exact IsValue.toList_ne_nil h
  case space => exact h.1
  all_goals exact fun hnil => List.cons_ne_nil _ _ (h.symm.trans hnil)

/-- The first character of a token tells its kind, and the others belong to what began with it. -/
theorem Fits.ofChar_eq {token : Token} {c : Char} {cs : List Char} (h : token.Fits)
    (htext : token.text.toList = c :: cs) :
    TokenKind.ofChar c = token.kind ∧ ∀ x ∈ cs, token.kind.goesOn x = true := by
  have hmark : ∀ {x : Char}, token.text.toList = [x] → c = x ∧ cs = [] :=
    fun hx => List.cons.inj (htext.symm.trans hx)
  unfold Fits at h
  cases hkind : token.kind <;> rw [hkind] at h
  case word =>
    have hall : ∀ x ∈ c :: cs, isReserved x = false := fun x hx => h.2 x (htext ▸ hx)
    refine ⟨ofChar_of_not_isReserved (hall c (List.mem_cons_self ..)), fun x hx => ?_⟩
    rw [TokenKind.goesOn, hall x (List.mem_cons_of_mem _ hx)]
    rfl
  case space =>
    have hall : IsGap (c :: cs) := htext ▸ h.2
    exact ⟨ofChar_of_isBlank (hall c (List.mem_cons_self ..)),
      fun x hx => hall x (List.mem_cons_of_mem _ hx)⟩
  all_goals
    obtain ⟨rfl, rfl⟩ := hmark h
    exact ⟨rfl, List.forall_mem_nil _⟩

/-- A token may stand behind another one exactly if this one could not go on with its first
character. -/
theorem apart_iff {a b : Token} {c : Char} (hb : TokenKind.ofChar c = b.kind) :
    Apart a b ↔ a.kind.goesOn c = false := by
  unfold Apart
  rw [← hb]
  cases ha : a.kind with
  | word =>
    have hword : TokenKind.ofChar c = .word ↔ isReserved c = false :=
      ⟨not_isReserved_of_ofChar, ofChar_of_not_isReserved⟩
    simp [hword, TokenKind.goesOn]
  | space =>
    have hspace : TokenKind.ofChar c = .space ↔ isBlank c = true :=
      ⟨isBlank_of_ofChar, ofChar_of_isBlank⟩
    simp [hspace, TokenKind.goesOn]
  | optional | opening | closing => simp [TokenKind.goesOn]

/-! ## The cut that the scan makes -/

theorem cutsFrom_tokensFrom (position : Nat) (chars : List Char) :
    CutsFrom position chars (tokensFrom position chars) := by
  induction position, chars using tokensFrom.induct with
  | case1 position =>
    rw [tokensFrom]
    exact ⟨rfl, placed_nil position, List.forall_mem_nil _, .nil⟩
  | case2 position c rest ih =>
    rw [tokensFrom]
    constructor
    · rw [List.flatMap_cons, ih.whole, toList_first_append]
    · exact placed_cons.2 ⟨rfl, ih.placed⟩
    · exact List.forall_mem_cons.2 ⟨first_fits position c rest, ih.fits⟩
    · refine List.isChain_cons.2 ⟨fun next hnext => ?_, ih.apart⟩
      have hhead := head_afterFirst c rest
      cases hafter : afterFirst c rest with
      | nil =>
        rw [hafter, tokensFrom] at hnext
        cases hnext
      | cons x xs =>
        rw [hafter, tokensFrom] at hnext
        obtain rfl : first _ x xs = next := Option.some.inj hnext
        exact (apart_iff rfl).2 (hhead x (by rw [hafter]; rfl))

/-- No other tokens cut the text up. -/
theorem CutsFrom.eq_tokensFrom {position : Nat} {chars : List Char} {tokens : List Token}
    (h : CutsFrom position chars tokens) : tokensFrom position chars = tokens := by
  induction tokens generalizing position chars with
  | nil =>
    obtain rfl := h.whole
    rw [List.flatMap_nil, tokensFrom]
  | cons token tokens ih =>
    obtain ⟨hfirst, hfits⟩ := List.forall_mem_cons.1 h.fits
    obtain ⟨hnext, hapart⟩ := List.isChain_cons.1 h.apart
    obtain ⟨hposition, hplaced⟩ := placed_cons.1 h.placed
    obtain ⟨c, cs, htext⟩ := List.exists_cons_of_ne_nil hfirst.toList_ne_nil
    obtain ⟨hkind, hcs⟩ := hfirst.ofChar_eq htext
    have hof : String.ofList (c :: cs) = token.text := by rw [← htext, String.ofList_toList]
    -- the token ends here, since the one behind it could not stand there otherwise
    have hstop : ∀ x ∈ (tokens.flatMap (·.text.toList)).head?, token.kind.goesOn x = false := by
      intro x hx
      cases tokens with
      | nil => cases hx
      | cons next tokens =>
        have hfit := hfits next (List.mem_cons_self ..)
        obtain ⟨y, ys, hy⟩ := List.exists_cons_of_ne_nil hfit.toList_ne_nil
        rw [List.flatMap_cons, hy] at hx
        obtain rfl : y = x := Option.some.inj hx
        exact (apart_iff (hfit.ofChar_eq hy).1).1 (hnext next rfl)
    have hrest := ih ⟨rfl, hplaced, hfits, hapart⟩
    rw [← h.whole, List.flatMap_cons, htext, List.cons_append, tokensFrom_append position hkind hcs
      hstop, hof, hrest]
    obtain ⟨kind, text, place⟩ := token
    obtain rfl : place = position := hposition
    rfl

theorem tokensFrom_eq_iff {position : Nat} {chars : List Char} {tokens : List Token} :
    tokensFrom position chars = tokens ↔ CutsFrom position chars tokens :=
  ⟨fun h => h ▸ cutsFrom_tokensFrom position chars, CutsFrom.eq_tokensFrom⟩

/-- The scan of a text by byte offsets comes to its end, and what it finds are the only tokens that
cut the text up: their texts put together are the text, each stands where the texts before it end,
none is empty, each has the characters of its kind, and no word or blank stretch is cut in two. -/
theorem scan_ends_and_eq_iff_cuts (input : String) :
    scanChecked input = some (scan input) ∧
    ∀ tokens, scan input = tokens ↔
      String.join (tokens.map text) = input ∧
      (∀ before token after, tokens = before ++ token :: after →
        token.position = (String.join (before.map text)).utf8ByteSize) ∧
      (∀ token ∈ tokens, token.text ≠ "" ∧ token.Fits) ∧
      tokens.IsChain Apart := by
  refine ⟨scanChecked_eq input, fun tokens => ?_⟩
  have hwhole : tokens.flatMap (·.text.toList) = input.toList ↔
      String.join (tokens.map text) = input := by
    rw [← String.toList_inj, String.toList_join, List.flatMap_map]
  have hfits : (∀ token ∈ tokens, token.text ≠ "" ∧ token.Fits) ↔ ∀ token ∈ tokens, token.Fits :=
    forall₂_congr fun token _ =>
      and_iff_right_of_imp fun h hempty => h.toList_ne_nil (String.toList_eq_nil_iff.2 hempty)
  rw [scan_eq, tokensFrom_eq_iff, hfits, ← hwhole]
  constructor
  · rintro ⟨hwhole, hplaced, hfits, hapart⟩
    exact ⟨hwhole, by simpa [Placed] using hplaced, hfits, hapart⟩
  · rintro ⟨hwhole, hplaced, hfits, hapart⟩
    exact ⟨hwhole, by simpa [Placed] using hplaced, hfits, hapart⟩

example : scan "é\u3000\u2003*b" =
    [⟨.word, "é", 0⟩, ⟨.space, "\u3000\u2003", 2⟩, ⟨.optional, "*", 8⟩, ⟨.word, "b", 9⟩] := by
  cbv

end ScopeGrant.Token
