import Mathlib
import ScopeGrant.Proofs.Scope.Acceptance

/-!
# Words inside brackets

Each word of a text stands inside some brackets, and each of these belongs to the word directly
before it. In an expression these are the values that stand above a scope in the trees that the
grammar writes (`Expression.map_chain_words`). The reader keeps them twice, as a stack and as a set,
and the two agree at every token (`Follows`). So the cycle that it reports is about the first word
that repeats an owner of the brackets around it, also in a text that goes on with a syntax error.
-/

namespace ScopeGrant

open Scope

/-- A word of a text with the words that own the brackets around it, outermost first. -/
structure PlacedWord where
  owners : List String
  value : String
deriving Repr, DecidableEq

namespace PlacedWord

/-- The values from the outermost owner down to the word. -/
def chain (w : PlacedWord) : List String :=
  w.owners ++ [w.value]

/-- The word is the same as one of the owners. -/
def repeatsOwner (w : PlacedWord) : Bool :=
  decide (w.value ∈ w.owners)

end PlacedWord

namespace Token

/-- The owners of the brackets that are open behind a token, if `owners` are those before it. A
bracket that opens belongs to what stands directly before it, `last`. -/
def ownersBehind (last : String) (owners : List String) : TokenKind → List String
  | .opening => owners ++ [last]
  | .closing => owners.dropLast
  | .optional | .word | .space => owners

/-- The words among the tokens behind `last`, where the brackets of `owners` are open. -/
def wordsFrom (last : String) (owners : List String) : List Token → List PlacedWord
  | [] => []
  | token :: rest =>
    let behind := wordsFrom token.text (ownersBehind last owners token.kind) rest
    if token.kind = .word then ⟨owners, token.text⟩ :: behind else behind

/-- The words of a text in order. -/
def words (input : String) : List PlacedWord :=
  wordsFrom "" [] (scan input)

end Token

open Token

/-! ## The words of an expression -/

namespace Scope

section Texts

variable (last : String) (owners : List String) (position : Nat) {gap rest : List Char}

theorem exists_wordsFrom_gap (hgap : IsGap gap)
    (hrest : ∀ c ∈ rest.head?, Text.isBlank c = false) :
    ∃ last' position', wordsFrom last owners (tokensFrom position (gap ++ rest)) =
      wordsFrom last' owners (tokensFrom position' rest) := by
  by_cases hne : gap = []
  · subst hne
    exact ⟨last, position, rfl⟩
  · refine ⟨String.ofList gap, position + (String.ofList gap).utf8ByteSize, ?_⟩
    rw [tokensFrom_gap hgap hne position hrest, wordsFrom, if_neg (by simp)]
    rfl

/-- Any other character than those of a word is a token that holds no word. -/
theorem exists_wordsFrom_mark {kind : TokenKind} {c : Char} (hkind : TokenKind.ofChar c = kind)
    (hword : kind ≠ .word) (hstop : ∀ x, kind.goesOn x = false) (rest : List Char) :
    ∃ position', wordsFrom last owners (tokensFrom position (c :: rest)) =
      wordsFrom (String.ofList [c]) (ownersBehind last owners kind) (tokensFrom position' rest) := by
  refine ⟨position + (String.ofList [c]).utf8ByteSize, ?_⟩
  rw [tokensFrom_mark position rest hkind hstop, wordsFrom, if_neg hword]

theorem exists_wordsFrom_heading {v : String} (hv : IsValue v) (o : Bool)
    (hrest : ∀ c ∈ rest.head?, isReserved c = true) :
    ∃ position', wordsFrom last owners (tokensFrom position (heading v o ++ rest)) =
      ⟨owners, v⟩ :: wordsFrom v owners (tokensFrom position' rest) := by
  have hvalue : ∀ last position, wordsFrom last owners (tokensFrom position (v.toList ++ rest)) =
      ⟨owners, v⟩ :: wordsFrom v owners (tokensFrom (position + v.utf8ByteSize) rest) := by
    intro last position
    rw [tokensFrom_value hv position hrest, wordsFrom, if_pos rfl]
    rfl
  cases o with
  | false => exact ⟨_, hvalue last position⟩
  | true =>
    have hkind : TokenKind.ofChar '*' = .optional := rfl
    obtain ⟨position', hstar⟩ := exists_wordsFrom_mark last owners position hkind (by simp)
      (fun _ => rfl) (v.toList ++ rest)
    exact ⟨_, hstar.trans (hvalue _ position')⟩

/-- An opening bracket puts what stands before it around the words that follow. -/
theorem exists_wordsFrom_enter (hgap : IsGap gap)
    (hrest : ∀ c ∈ rest.head?, Text.isBlank c = false) :
    ∃ last' position', wordsFrom last owners (tokensFrom position ('[' :: (gap ++ rest))) =
      wordsFrom last' (owners ++ [last]) (tokensFrom position' rest) := by
  have hkind : TokenKind.ofChar '[' = .opening := rfl
  obtain ⟨position₁, hopen⟩ := exists_wordsFrom_mark last owners position hkind (by simp)
    (fun _ => rfl) (gap ++ rest)
  obtain ⟨last', position', hwords⟩ :=
    exists_wordsFrom_gap "[" (owners ++ [last]) position₁ hgap hrest
  exact ⟨last', position', hopen.trans hwords⟩

/-- A closing bracket takes the innermost owner away again. -/
theorem exists_wordsFrom_leave (hgap : IsGap gap) (rest : List Char) :
    ∃ position', wordsFrom last owners (tokensFrom position (gap ++ ']' :: rest)) =
      wordsFrom "]" owners.dropLast (tokensFrom position' rest) := by
  have hclose : ∀ c ∈ (']' :: rest).head?, Text.isBlank c = false := by
    rintro c ⟨⟩
    decide
  obtain ⟨last₁, position₁, hwords⟩ := exists_wordsFrom_gap last owners position hgap hclose
  have hkind : TokenKind.ofChar ']' = .closing := rfl
  obtain ⟨position', hclosed⟩ := exists_wordsFrom_mark last₁ owners position₁ hkind (by simp)
    (fun _ => rfl) rest
  exact ⟨position', hwords.trans hclosed⟩

end Texts

/-- The words of a row of terms are the chains of the trees that it writes, each below the owners of
the brackets that the row stands in. -/
theorem Terms.exists_map_chain_wordsFrom {ds : List Scope} {text : List Char} (h : Terms ds text)
    (last : String) (owners : List String) (position : Nat) {rest : List Char}
    (hrest : ∀ c ∈ rest.head?, isReserved c = true) :
    ∃ last' position',
      (wordsFrom last owners (tokensFrom position (text ++ rest))).map PlacedWord.chain =
        (ds.flatMap chains).map (owners ++ ·) ++
          (wordsFrom last' owners (tokensFrom position' rest)).map PlacedWord.chain := by
  induction h generalizing last owners position rest with
  | @plain v o hv =>
    obtain ⟨position', hwords⟩ := exists_wordsFrom_heading last owners position hv o hrest
    exact ⟨v, position', by rw [hwords]; rfl⟩
  | @block v o ds before body after hv hbefore hbody hafter ih =>
    have htext : heading v o ++ '[' :: (before ++ body ++ after) ++ [']'] ++ rest =
        heading v o ++ '[' :: (before ++ (body ++ (after ++ ']' :: rest))) := by simp
    have hopen : ∀ c ∈ ('[' :: (before ++ (body ++ (after ++ ']' :: rest)))).head?,
        isReserved c = true := by
      rintro c ⟨⟩
      decide
    have hhead : ∀ c ∈ (after ++ ']' :: rest).head?, isReserved c = true :=
      isReserved_head_gap hafter fun _ => by simp [isReserved]
    obtain ⟨position₁, hvalue⟩ := exists_wordsFrom_heading last owners position hv o hopen
    obtain ⟨last₂, position₂, henter⟩ := exists_wordsFrom_enter v owners position₁ hbefore
      (hbody.head (after ++ ']' :: rest))
    obtain ⟨last₃, position₃, hinside⟩ := ih last₂ (owners ++ [v]) position₂ hhead
    obtain ⟨position₄, hleave⟩ :=
      exists_wordsFrom_leave last₃ (owners ++ [v]) position₃ hafter rest
    have hchains : chains (mk v o ds) = [v] :: (ds.flatMap chains).map (v :: ·) := by
      rw [chains, chainsList_eq]
    refine ⟨"]", position₄, ?_⟩
    rw [htext, hvalue, List.map_cons, henter, hinside, hleave, List.flatMap_singleton, hchains]
    simp [PlacedWord.chain]
  | @more t ts text gap row h hgap hne hrow ih ih' =>
    have htext : text ++ gap ++ row ++ rest = text ++ (gap ++ (row ++ rest)) := by simp
    have hhead : ∀ c ∈ (gap ++ (row ++ rest)).head?, isReserved c = true :=
      isReserved_head_gap hgap fun h => absurd h hne
    obtain ⟨last₁, position₁, hterm⟩ := ih last owners position hhead
    obtain ⟨last₂, position₂, hgap⟩ :=
      exists_wordsFrom_gap last₁ owners position₁ hgap (hrow.head rest)
    obtain ⟨last₃, position₃, hterms⟩ := ih' last₂ owners position₂ hrest
    refine ⟨last₃, position₃, ?_⟩
    rw [htext, hterm, hgap, hterms]
    simp

/-- The words of an expression, below the owners of the brackets around them, are the chains of the
trees that it writes. -/
theorem Expression.map_chain_words {ds : List Scope} {input : String}
    (h : Expression ds input.toList) : (words input).map PlacedWord.chain = ds.flatMap chains := by
  have hnil : ∀ c ∈ ([] : List Char).head?, Text.isBlank c = false := by simp
  have hblank : ∀ last position (gap : List Char), IsGap gap →
      wordsFrom last [] (tokensFrom position gap) = [] := by
    intro last position gap hgap
    obtain ⟨last', position', hwords⟩ := exists_wordsFrom_gap last [] position hgap hnil
    rw [List.append_nil] at hwords
    rw [hwords, tokensFrom, wordsFrom]
  rw [words, scan_eq]
  generalize input.toList = text at h
  cases h with
  | blank hgap => rw [hblank _ _ _ hgap]; rfl
  | @row _ before body after hbefore hbody hafter =>
    have hhead : ∀ c ∈ after.head?, isReserved c = true := fun c hc =>
      isReserved_of_isBlank (hafter c (List.mem_of_mem_head? hc))
    obtain ⟨last₁, position₁, hgap⟩ :=
      exists_wordsFrom_gap "" [] 0 hbefore (hbody.head after)
    obtain ⟨last₂, position₂, hterms⟩ :=
      hbody.exists_map_chain_wordsFrom last₁ [] position₁ hhead
    rw [List.append_assoc, hgap, hterms, hblank _ _ _ hafter]
    simp

end Scope

namespace Parser

/-! ## The owners that the reader knows -/

namespace State

variable {parser : Parser} {input v : String} {st next : State} {token : Token}
  {path : List String}

theorem finish_ne_cycle (st : State) (input v : String) (path : List String) :
    st.finish input ≠ .error (.cycle v path) := by
  unfold finish
  split
  · simp
  · split <;> simp

/-- The reader knows the owners of the brackets that are open behind `last`, each of them once, and
if a bracket opens next, it belongs to `last`. -/
structure Follows (st : State) (last : String) (owners : List String) : Prop where
  ownerChain : st.ownerChain = owners
  owned : st.Owned
  nodup : owners.Nodup
  word : st.before = .word →
    ∃ s others, st.current = s :: others ∧ s.value = last ∧ last ∉ owners

namespace Follows

variable {last : String} {owners : List String}

theorem init : Follows {} "" [] :=
  ⟨rfl, fun v => by simp [State.ownerChain], List.nodup_nil, by simp⟩

theorem contains_iff (h : Follows st last owners) :
    st.owners.contains v = true ↔ v ∈ owners := by
  rw [h.owned.contains_iff, h.ownerChain]

theorem word_eq_ok {position : Nat} (h : Follows st last owners)
    (hs : st.word input v position = .ok next) :
    v ∉ owners ∧ Follows { next with before := .word } v owners := by
  have hfresh : v ∉ owners := h.ownerChain ▸ h.owned.not_mem_of_word hs
  obtain rfl := State.word_eq_ok hs
  refine ⟨hfresh, (ownerChain_setCurrent st _).trans h.ownerChain, h.owned.setCurrent _, h.nodup,
    fun _ => ?_⟩
  exact ⟨_, st.current, current_setCurrent st _, rfl, hfresh⟩

theorem opening_eq_ok {position : Nat} (h : Follows st last owners)
    (hs : st.opening parser input position = .ok next) (text : String) :
    Follows { next with before := .opening } text (owners ++ [last]) := by
  obtain ⟨hb, owner, others, hcurrent, rfl⟩ := State.opening_eq_ok hs
  obtain ⟨s, others', hcurrent', rfl, hfresh⟩ := h.word hb
  obtain ⟨rfl, rfl⟩ := List.cons.inj (hcurrent.symm.trans hcurrent')
  refine ⟨?_, (h.owned.setCurrent _).withBlock _ position, ?_, by simp⟩
  · have hchain := ownerChain_withBlock (st.setCurrent others) owner position
    rwa [ownerChain_setCurrent, h.ownerChain] at hchain
  · rw [← List.concat_eq_append, List.nodup_concat]
    exact ⟨hfresh, h.nodup⟩

theorem closing_eq_ok {position : Nat} (h : Follows st last owners)
    (hs : st.closing input position = .ok next) (text : String) :
    Follows { next with before := .closing } text owners.dropLast := by
  obtain ⟨-, block, blocks, hblocks, -, rfl⟩ := State.closing_eq_ok hs
  have hchain : owners = (st.withoutBlock block blocks).ownerChain ++ [block.owner.value] := by
    rw [← h.ownerChain, ownerChain_withoutBlock hblocks]
  have hnodup := h.nodup
  rw [hchain, ← List.concat_eq_append, List.nodup_concat] at hnodup
  obtain ⟨hfresh, hnodup⟩ := hnodup
  rw [hchain, List.dropLast_concat]
  exact ⟨ownerChain_setCurrent _ _, (h.owned.withoutBlock hblocks hfresh).setCurrent _, hnodup,
    by simp⟩

/-- Every token that is taken in leaves the reader with the owners that stand around the next one,
and a word that is taken in is none of the owners. -/
theorem step (h : Follows st last owners) (hs : st.step parser input token = .ok next) :
    Follows next token.text (ownersBehind last owners token.kind) ∧
      (token.kind = .word → token.text ∉ owners) := by
  rw [step_eq] at hs
  obtain ⟨taken, htaken, hs⟩ := bind_eq_ok_iff.1 hs
  cases hs
  unfold take at htaken
  cases hk : token.kind with
  | optional =>
    rw [hk] at htaken
    obtain rfl := star_eq_ok htaken
    exact ⟨⟨h.ownerChain, h.owned, h.nodup, by simp [Before.ofKind]⟩, by simp⟩
  | word =>
    rw [hk] at htaken
    obtain ⟨hfresh, hnext⟩ := h.word_eq_ok htaken
    exact ⟨hnext, fun _ => hfresh⟩
  | opening =>
    rw [hk] at htaken
    exact ⟨h.opening_eq_ok htaken _, by simp⟩
  | closing =>
    rw [hk] at htaken
    exact ⟨h.closing_eq_ok htaken _, by simp⟩
  | space =>
    rw [hk] at htaken
    obtain rfl := space_eq_ok htaken
    exact ⟨⟨h.ownerChain, h.owned, h.nodup, by simp [Before.ofKind]⟩, by simp⟩

theorem find?_wordsFrom_cons (h : Follows st last owners)
    (hs : st.step parser input token = .ok next) (tokens : List Token) :
    (wordsFrom last owners (token :: tokens)).find? PlacedWord.repeatsOwner =
      (wordsFrom token.text (ownersBehind last owners token.kind) tokens).find?
        PlacedWord.repeatsOwner := by
  have hfresh := (h.step hs).2
  rw [wordsFrom]
  by_cases hk : token.kind = .word
  · rw [if_pos hk, List.find?_cons_of_neg]
    simpa [PlacedWord.repeatsOwner] using hfresh hk
  · rw [if_neg hk]

/-- No word of a text that is read to its end repeats an owner. -/
theorem run {tokens : List Token} {final : State} (h : Follows st last owners)
    (hs : tokens.foldlM (State.step parser input) st = .ok final) :
    (wordsFrom last owners tokens).find? PlacedWord.repeatsOwner = none := by
  induction tokens generalizing st last owners with
  | nil => rfl
  | cons token tokens ih =>
    rw [List.foldlM_cons] at hs
    obtain ⟨next, hstep, hrun⟩ := bind_eq_ok_iff.1 hs
    rw [h.find?_wordsFrom_cons hstep]
    exact ih (h.step hstep).1 hrun

/-- A cycle is reported at the first word that repeats an owner. -/
theorem run_eq_cycle {tokens : List Token} (h : Follows st last owners)
    (hs : tokens.foldlM (State.step parser input) st = .error (.cycle v path)) :
    ∃ w, (wordsFrom last owners tokens).find? PlacedWord.repeatsOwner = some w ∧ w.value = v ∧
      path = w.chain ∧ w.owners.Nodup := by
  induction tokens generalizing st last owners with
  | nil => cases hs
  | cons token tokens ih =>
    rw [List.foldlM_cons] at hs
    cases hstep : st.step parser input token with
    | ok next =>
      rw [hstep] at hs
      rw [h.find?_wordsFrom_cons hstep]
      exact ih (h.step hstep).1 hs
    | error e =>
      rw [hstep] at hs
      cases hs
      rcases step_eq_error hstep with ⟨kind, place, -, he⟩ | ⟨-, -, he⟩ | ⟨hk, howner, he⟩
      · cases he
      · cases he
      · cases he
        refine ⟨⟨owners, token.text⟩, ?_, rfl, by rw [h.ownerChain]; rfl, h.nodup⟩
        rw [wordsFrom, if_pos hk, List.find?_cons_of_pos]
        exact decide_eq_true (h.contains_iff.1 howner)

end Follows

end State

open State

theorem find?_words_of_parse {input : String} {scopes : List Scope}
    (h : Scope.parse input = .ok scopes) :
    (words input).find? PlacedWord.repeatsOwner = none := by
  rw [Scope.parse, parse] at h
  obtain ⟨final, hrun, -⟩ := bind_eq_ok_iff.1 h
  exact Follows.init.run hrun

theorem exists_find?_words_of_parse {input v : String} {path : List String}
    (h : Scope.parse input = .error (.cycle v path)) :
    ∃ w, (words input).find? PlacedWord.repeatsOwner = some w ∧ w.value = v ∧ path = w.chain ∧
      w.owners.Nodup := by
  rw [Scope.parse, parse] at h
  cases hrun : (scan input).foldlM (State.step {} input) {} with
  | ok final =>
    rw [hrun] at h
    exact absurd h (final.finish_ne_cycle input v path)
  | error e =>
    rw [hrun] at h
    cases h
    exact Follows.init.run_eq_cycle hrun

/-- A cycle that is reported for a text, whatever else is wrong with it, is about the first word that
repeats an owner of the brackets around it: the path leads from the outermost owner down to this word,
and the owners differ. What the grammar writes is read or has such a word, and the words and owners
are then those of the written trees. -/
theorem parse_cycle_is_first_repeated_owner (input : String) :
    (∀ v path, Scope.parse input = .error (.cycle v path) →
      ∃ w, (words input).find? PlacedWord.repeatsOwner = some w ∧ w.value = v ∧
        path = w.owners ++ [v] ∧ w.owners.Nodup ∧ w.owners.count v = 1) ∧
    ∀ ds, Expression ds input.toList →
      (words input).map PlacedWord.chain = ds.flatMap chains ∧
      (((words input).find? PlacedWord.repeatsOwner = none ∧
          ∃ scopes, Scope.parse input = .ok scopes) ∨
        ∃ w, (words input).find? PlacedWord.repeatsOwner = some w ∧
          Scope.parse input = .error (.cycle w.value (w.owners ++ [w.value]))) := by
  constructor
  · intro v path h
    obtain ⟨w, hfirst, rfl, rfl, hnodup⟩ := exists_find?_words_of_parse h
    have hrepeats : w.repeatsOwner = true := List.find?_some hfirst
    have hmem : w.value ∈ w.owners := of_decide_eq_true hrepeats
    exact ⟨w, hfirst, rfl, rfl, hnodup, List.count_eq_one_of_mem hnodup hmem⟩
  · intro ds hexpr
    refine ⟨hexpr.map_chain_words, ?_⟩
    rcases parse_of_expression hexpr with ⟨owners, v, -, herror⟩ | ⟨-, hok⟩
    · obtain ⟨w, hfirst, rfl, hpath, -⟩ := exists_find?_words_of_parse herror
      rw [hpath] at herror
      exact Or.inr ⟨w, hfirst, herror⟩
    · exact Or.inl ⟨find?_words_of_parse hok, _, hok⟩

def belowItself : Scope :=
  Scope.mk "a" false [leaf "b" false, Scope.mk "a" true [leaf "a" false]]

/-- The first text is cut off inside the brackets, but before its end it repeats an owner. The second
one is written by the grammar, and of the two words that repeat an owner it is the first one that is
reported. -/
theorem parse_cycle_is_first_repeated_owner_of_two_texts :
    Scope.parse "a[b[*c a" = .error (.cycle "a" ["a", "b", "a"]) ∧
    (∃ w, (words "a[b[*c a").find? PlacedWord.repeatsOwner = some w ∧ w.value = "a" ∧
      ["a", "b", "a"] = w.owners ++ ["a"] ∧ w.owners.Nodup ∧ w.owners.count "a" = 1) ∧
    Expression [belowItself] "a[b *a[a]]".toList ∧
    (words "a[b *a[a]]").map PlacedWord.chain =
      [["a"], ["a", "b"], ["a", "a"], ["a", "a", "a"]] ∧
    Scope.parse "a[b *a[a]]" = .error (.cycle "a" ["a", "a"]) ∧
    (words "a[b *a[a]]").find? PlacedWord.repeatsOwner = some ⟨["a"], "a"⟩ := by
  have hcut : Scope.parse "a[b[*c a" = .error (.cycle "a" ["a", "b", "a"]) := by cbv
  have ha : IsValue "a" := by decide
  have hb : IsValue "b" := by decide
  have hinner : Terms [Scope.mk "a" true [leaf "a" false]] "*a[a]".toList :=
    .block ha isGap_nil (.plain ha) isGap_nil
  have hrow : Terms belowItself.dependencies "b *a[a]".toList :=
    .more (.plain hb) isGap_space (by decide) hinner
  have hexpr : Expression [belowItself] "a[b *a[a]]".toList :=
    .row isGap_nil (.block ha isGap_nil hrow isGap_nil) isGap_nil
  have hcycle : Scope.parse "a[b *a[a]]" = .error (.cycle "a" ["a", "a"]) := by cbv
  refine ⟨hcut, (parse_cycle_is_first_repeated_owner "a[b[*c a").1 _ _ hcut, hexpr, ?_⟩
  obtain ⟨hwords, hresult⟩ := (parse_cycle_is_first_repeated_owner "a[b *a[a]]").2 _ hexpr
  refine ⟨hwords, hcycle, ?_⟩
  rcases hresult with ⟨-, scopes, hread⟩ | ⟨⟨owners, v⟩, hfirst, herror⟩
  · cases hcycle.symm.trans hread
  · obtain ⟨hv, hpath⟩ := ScopeError.cycle.inj (Except.error.inj (hcycle.symm.trans herror))
    subst hv
    obtain rfl : ["a"] = owners := List.append_cancel_right hpath
    exact hfirst

end Parser

end ScopeGrant
