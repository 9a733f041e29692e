import ScopeGrant.Proofs.Scope.Acceptance
import ScopeGrant.Proofs.Scope.Cut
import ScopeGrant.Proofs.Scope.Reachable

/-!
# What a scope value is

Characters are judged twice. Building a scope searches its value for a character that no value may
hold, and reading cuts a text into tokens, each of which goes on for as long as its first character
allows. The two agree on every text: `new` takes exactly those that are scanned in one piece as a
word, and these are the texts that are read as a required scope without dependencies. Any other text
is refused at the place of the first character that is at fault (`InvalidAt`).
-/

namespace ScopeGrant.Scope

open Text

/-! ## Where a text fails to be a value -/

/-- The text is no value, and this shows at a byte offset: there is the first of its characters that
is blank, a star or a bracket. The empty text fails at its beginning. -/
inductive InvalidAt (v : String) : (position : Nat) → Prop where
  /-- There is no character. -/
  | empty (h : v = "") : InvalidAt v 0
  /-- The characters before `c` may stand in a value, and `c` may not. -/
  | reserved {before after : List Char} {c : Char} (h : v.toList = before ++ c :: after)
      (hbefore : ∀ x ∈ before, isBlank x = false ∧ x ≠ '*' ∧ x ≠ '[' ∧ x ≠ ']')
      (hc : isBlank c = true ∨ c = '*' ∨ c = '[' ∨ c = ']') :
      InvalidAt v (String.ofList before).utf8ByteSize

theorem isReserved_iff {c : Char} :
    isReserved c = true ↔ isBlank c = true ∨ c = '*' ∨ c = '[' ∨ c = ']' := by
  simp [isReserved, or_assoc]

/-- The search comes to the first reserved character, at the byte size of what stands before it. -/
theorem reservedAt?_eq_some_iff {start position : Nat} {text : List Char} :
    reservedAt? start text = some position ↔
      ∃ before c after, text = before ++ c :: after ∧ (∀ x ∈ before, isReserved x = false) ∧
        isReserved c = true ∧ position = start + (String.ofList before).utf8ByteSize := by
  induction text generalizing start with
  | nil => simp [reservedAt?]
  | cons d text ih =>
    rw [reservedAt?]
    by_cases hd : isReserved d = true
    · rw [if_pos hd]
      constructor
      · intro h
        obtain rfl := Option.some.inj h
        exact ⟨[], d, text, rfl, List.forall_mem_nil _, hd, rfl⟩
      · rintro ⟨before, c, after, htext, hbefore, hc, rfl⟩
        cases before with
        | nil => rfl
        | cons x before =>
          obtain ⟨rfl, -⟩ := List.cons.inj htext
          rw [hbefore d (List.mem_cons_self ..)] at hd
          cases hd
    · have hd' : isReserved d = false := eq_false_of_ne_true hd
      have hsize : ∀ before, start + d.utf8Size + (String.ofList before).utf8ByteSize =
          start + (String.ofList (d :: before)).utf8ByteSize := by
        intro before
        rw [String.ofList_cons, String.utf8ByteSize_append, String.utf8ByteSize_singleton,
          Nat.add_assoc]
      rw [if_neg hd, ih]
      constructor
      · rintro ⟨before, c, after, rfl, hbefore, hc, rfl⟩
        exact ⟨d :: before, c, after, rfl, List.forall_mem_cons.2 ⟨hd', hbefore⟩, hc, hsize before⟩
      · rintro ⟨before, c, after, htext, hbefore, hc, rfl⟩
        cases before with
        | nil =>
          obtain ⟨rfl, -⟩ := List.cons.inj htext
          exact absurd hc hd
        | cons x before =>
          obtain ⟨rfl, rfl⟩ := List.cons.inj htext
          have hrest := (List.forall_mem_cons.1 hbefore).2
          exact ⟨before, c, after, rfl, hrest, hc, (hsize before).symm⟩

theorem valueFault?_eq_some_iff {v : String} {e : ScopeError} :
    valueFault? v = some e ↔
      ∃ position, InvalidAt v position ∧ e = .parse .invalidToken position v := by
  unfold valueFault?
  by_cases hv : v = ""
  · subst hv
    constructor
    · intro h
      exact ⟨0, .empty rfl, (Option.some.inj h).symm⟩
    · rintro ⟨position, hinvalid, rfl⟩
      cases hinvalid with
      | empty _ => rfl
      | reserved h _ _ => exact absurd h.symm (by simp)
  · have hne : v.isEmpty = false := by simpa using hv
    rw [hne, if_neg Bool.false_ne_true, Option.map_eq_some_iff]
    refine exists_congr fun position => and_congr ?_ eq_comm
    rw [reservedAt?_eq_some_iff]
    constructor
    · rintro ⟨before, c, after, htext, hbefore, hc, rfl⟩
      rw [Nat.zero_add]
      exact .reserved htext (fun x hx => isReserved_eq_false (hbefore x hx)) (isReserved_iff.1 hc)
    · intro hinvalid
      cases hinvalid with
      | empty h => exact absurd h hv
      | @reserved before after c htext hbefore hc =>
        have hbefore' : ∀ x ∈ before, isReserved x = false := by
          intro x hx
          simpa [isReserved, and_assoc] using hbefore x hx
        exact ⟨before, c, after, htext, hbefore', isReserved_iff.2 hc, (Nat.zero_add _).symm⟩

theorem new_eq_error_iff {v : String} {e : ScopeError} :
    new v = .error e ↔ ∃ position, InvalidAt v position ∧ e = .parse .invalidToken position v := by
  rw [← valueFault?_eq_some_iff, new]
  cases valueFault? v <;> simp

/-! ## What is taken -/

theorem exists_new_eq_ok_iff {v : String} : (∃ s, new v = .ok s) ↔ IsValue v := by
  simp only [new_eq_ok_iff, exists_and_left, exists_eq, and_true]

/-- A value is scanned as one word, and a word has the characters of a value. -/
theorem scan_eq_word_iff {v : String} :
    (∃ token, Token.scan v = [token] ∧ token.kind = .word ∧ token.text = v) ↔ IsValue v := by
  constructor
  · rintro ⟨token, hscan, hkind, rfl⟩
    rw [Token.scan_eq, Token.tokensFrom_eq_iff] at hscan
    have hfits := hscan.fits token (List.mem_singleton_self _)
    rwa [Token.Fits, hkind] at hfits
  · intro hv
    refine ⟨⟨.word, v, 0⟩, ?_, rfl, rfl⟩
    have hscan : Token.tokensFrom 0 (v.toList ++ []) = ⟨.word, v, 0⟩ :: Token.tokensFrom _ [] :=
      Token.tokensFrom_value hv 0 (by simp)
    rwa [List.append_nil, Token.tokensFrom, ← Token.scan_eq] at hscan

/-- A value is read as a leaf, and what is read has nothing but values in it. -/
theorem parse_eq_leaf_iff {v : String} : Scope.parse v = .ok [leaf v false] ↔ IsValue v := by
  constructor
  · intro hread
    have hleaf := wellFormed_of_parse hread _ (List.mem_singleton_self _)
    exact hleaf.values _ .refl
  · intro hv
    have hexpr : Expression [leaf v false] ([] ++ v.toList ++ []) :=
      .row isGap_nil (.plain hv) isGap_nil
    have hclear : Clear [] [leaf v false] :=
      clear_top_iff.2 (List.forall_mem_singleton.2 (WellFormed.leaf hv false).acyclic)
    rw [List.nil_append, List.append_nil] at hexpr
    refine Parser.parse_eq_ok_iff.2 ⟨_, hexpr, hclear, ?_⟩
    rw [List.map_singleton, collapse_leaf]

/-- Building takes a text as a value exactly if it is scanned as a single word, and exactly if it is
read as the required scope of this value without dependencies. A text that is not taken is refused
as an invalid token, at the byte offset of its first character that is blank, a star or a bracket,
or at its beginning if it is empty. -/
theorem new_succeeds_iff_scanned_whole_iff_read_as_leaf (v : String) :
    [∃ s, Scope.new v = .ok s,
      ∃ token, Token.scan v = [token] ∧ token.kind = .word ∧ token.text = v,
      Scope.parse v = .ok [leaf v false]].TFAE ∧
    ∀ e, Scope.new v = .error e ↔
      ∃ position, InvalidAt v position ∧ e = .parse .invalidToken position v := by
  constructor
  · tfae_have 1 ↔ 2 := by rw [exists_new_eq_ok_iff, scan_eq_word_iff]
    tfae_have 1 ↔ 3 := by rw [exists_new_eq_ok_iff, parse_eq_leaf_iff]
    tfae_finish
  · exact fun e => new_eq_error_iff

example : Scope.new "é\u2003*b" = .error (.parse .invalidToken 2 "é\u2003*b") := by cbv

end ScopeGrant.Scope
