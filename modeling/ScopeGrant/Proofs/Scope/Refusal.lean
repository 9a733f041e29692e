import ScopeGrant.Proofs.Scope.Reading

/-!
# What a reading stops at

A run over a text may be cut between two tokens (`run_append`), and a run that fails has come to a
token that is refused (`run_eq_error`). For what a token is refused is said here once, fault by
fault (`Refuses`). Except for cycles this looks at the kind and the place of the token only, not at
what it holds. So a syntax error is that of one token, or else of the end of the text
(`parse_eq_parse_error`).
-/

namespace ScopeGrant.Parser

open Scope Token

/-! ## Parts of a run -/

namespace State

variable {parser : Parser} {input input' : String} {st final : State} {position : Nat}

/-- The text does not go on with the token that has been taken in last. -/
def Stops (st : State) (rest : List Char) : Prop :=
  ∀ c ∈ rest.head?, (st.before = .word → isReserved c = true) ∧
    (st.before = .space → Text.isBlank c = false)

theorem Stops.of_append {xs ys : List Char} (h : st.Stops (xs ++ ys)) : st.Stops xs := by
  intro c hc
  exact h c (by rw [List.head?_append, hc]; rfl)

theorem before_of_step {token : Token} {next : State}
    (h : st.step parser input token = .ok next) : next.before = .ofKind token.kind := by
  rw [step_eq] at h
  obtain ⟨taken, -, h⟩ := bind_eq_ok_iff.1 h
  cases h
  rfl

/-- Behind a token the text goes on with another one exactly if the token cannot be longer. -/
theorem stops_iff_goesOn {token : Token} {next : State}
    (h : st.step parser input token = .ok next) (rest : List Char) :
    next.Stops rest ↔ ∀ c ∈ rest.head?, token.kind.goesOn c = false := by
  rw [Stops, before_of_step h]
  cases token.kind <;> simp [Before.ofKind, TokenKind.goesOn]

/-- The first token of a text and a run over what follows it are a run over the text. -/
theorem run_first {c : Char} {cs rest : List Char} {next : State}
    (h : st.step parser input (first position c cs) = .ok next) (hrest : next.Stops rest) :
    st.run parser input position ((first position c cs).text.toList ++ rest) =
      next.run parser input (first position c cs).stop rest := by
  rw [stops_iff_goesOn h] at hrest
  have hcs : ∀ x ∈ cs.takeWhile (TokenKind.ofChar c).goesOn,
      (TokenKind.ofChar c).goesOn x = true := fun x hx => List.mem_takeWhile_imp hx
  rw [first, String.toList_ofList, List.cons_append,
    run_of_tokensFrom (tokensFrom_append position rfl hcs hrest)]
  rw [first] at h
  rw [h]
  rfl

/-- A run may be cut between two tokens. -/
theorem run_append {text rest : List Char} (h : st.run parser input position text = .ok final)
    (hrest : final.Stops rest) :
    st.run parser input position (text ++ rest) =
      final.run parser input (position + (String.ofList text).utf8ByteSize) rest := by
  induction position, text using tokensFrom.induct generalizing st with
  | case1 position =>
    rw [run_nil] at h
    cases h
    rfl
  | case2 position c text ih =>
    rw [run_of_tokensFrom (tokensFrom.eq_2 position c text)] at h
    obtain ⟨next, hstep, h⟩ := bind_eq_ok_iff.1 h
    -- only behind the last token of the text it is `rest` that the token must not go on with
    have hstops : next.Stops (afterFirst c text ++ rest) := by
      cases hafter : afterFirst c text with
      | nil =>
        rw [hafter, run_nil] at h
        cases h
        exact hrest
      | cons x xs =>
        rw [stops_iff_goesOn hstep]
        intro y hy
        exact head_afterFirst c text y (by simpa [hafter] using hy)
    rw [← toList_first_append position c text, List.append_assoc, run_first hstep hstops, ih h,
      String.ofList_append, String.utf8ByteSize_append, String.ofList_toList, ← Nat.add_assoc]
    rfl

/-- A run that fails has come to a token that is refused. -/
theorem run_eq_error {text : List Char} {e : ScopeError} (hst : st.Stops text)
    (h : st.run parser input position text = .error e) :
    ∃ before c after st', text = before ++ c :: after ∧
      st.run parser input position before = .ok st' ∧ st'.Stops (c :: after) ∧
      st'.step parser input
        (first (position + (String.ofList before).utf8ByteSize) c after) = .error e := by
  induction position, text using tokensFrom.induct generalizing st with
  | case1 position =>
    rw [run_nil] at h
    cases h
  | case2 position c text ih =>
    rw [run_of_tokensFrom (tokensFrom.eq_2 position c text)] at h
    cases hstep : st.step parser input (first position c text) with
    | error e' =>
      rw [hstep] at h
      cases h
      exact ⟨[], c, text, st, rfl, run_nil .., hst, hstep⟩
    | ok next =>
      rw [hstep, ok_bind] at h
      have hnext : next.Stops (afterFirst c text) :=
        (stops_iff_goesOn hstep _).2 (head_afterFirst c text)
      obtain ⟨before, d, after, st', hsplit, hrun, hstops, hrefused⟩ := ih hnext h
      have hfirst := run_first hstep (hsplit ▸ hnext).of_append
      refine ⟨(first position c text).text.toList ++ before, d, after, st', ?_,
        hfirst.trans hrun, hstops, ?_⟩
      · rw [List.append_assoc, ← hsplit, toList_first_append]
      · rw [String.ofList_append, String.utf8ByteSize_append, String.ofList_toList,
          ← Nat.add_assoc]
        exact hrefused

end State

/-! ## What a token is refused for -/

namespace State

/-- What is wrong with a token, and where: all that it is refused for but a cycle. -/
inductive Refuses (parser : Parser) (st : State) (token : Token) : ParseErrorKind → Nat → Prop where
  | starBehindWord (hk : token.kind = .optional) (hb : st.before = .word) :
    Refuses parser st token .danglingOptional token.position
  | starBehindClosing (hk : token.kind = .optional) (hb : st.before = .closing) :
    Refuses parser st token .missingSeparator token.position
  | starBehindStar (hk : token.kind = .optional) (hb : st.before = .optional) :
    Refuses parser st token .optionalNotAdjacent st.optionalAt
  | wordBehindClosing (hk : token.kind = .word) (hb : st.before = .closing) :
    Refuses parser st token .missingSeparator token.position
  | openingFault {kind : ParseErrorKind} {place : Nat} (hk : token.kind = .opening)
      (h : st.openingFault? token.position = some (kind, place)) :
    Refuses parser st token kind place
  | tooDeep (hk : token.kind = .opening) (h : st.openingFault? token.position = none)
      (hfull : st.full parser = true) :
    Refuses parser st token .tooDeep token.position
  | noOwner (hk : token.kind = .opening) (h : st.openingFault? token.position = none)
      (hfull : st.full parser = false) (hcurrent : st.current = []) :
    Refuses parser st token .unattachedBracket token.position
  | closingBehindStar (hk : token.kind = .closing) (hb : st.before = .optional) :
    Refuses parser st token .danglingOptional st.optionalAt
  | unopened (hk : token.kind = .closing) (hb : st.before ≠ .optional) (hblocks : st.blocks = []) :
    Refuses parser st token .unopenedBracket token.position
  | empty {block : Block} {blocks : List Block} (hk : token.kind = .closing)
      (hb : st.before ≠ .optional) (hblocks : st.blocks = block :: blocks)
      (hnil : block.scopes = []) :
    Refuses parser st token .emptyBrackets block.openedAt
  | spaceBehindStar (hk : token.kind = .space) (hb : st.before = .optional) :
    Refuses parser st token .optionalNotAdjacent st.optionalAt

theorem kind_of_openingFault? {st : State} {kind : ParseErrorKind} {position place : Nat}
    (h : st.openingFault? position = some (kind, place)) :
    kind = .optionalNotAdjacent ∨ kind = .spaceBeforeBracket ∨ kind = .unattachedBracket := by
  unfold openingFault? at h
  split at h
  · cases h
  · cases h
    exact Or.inl rfl
  · split at h <;> cases h
    · exact Or.inr (Or.inl rfl)
    · exact Or.inr (Or.inr rfl)
  all_goals
    cases h
    exact Or.inr (Or.inr rfl)

theorem step_eq_error_iff_take {parser : Parser} {input : String} {st : State} {token : Token}
    {e : ScopeError} :
    st.step parser input token = .error e ↔ st.take parser input token = .error e := by
  rw [step_eq]
  cases st.take parser input token with
  | error e' => rfl
  | ok taken => simp

theorem step_eq_parse_error_iff {parser : Parser} {input text : String} {st : State} {token : Token}
    {kind : ParseErrorKind} {place : Nat} :
    st.step parser input token = .error (.parse kind place text) ↔
      text = input ∧ Refuses parser st token kind place := by
  rw [step_eq_error_iff_take]
  constructor
  · intro h
    unfold take at h
    cases hk : token.kind with
    | optional =>
      simp only [hk, star] at h
      split at h <;> cases h
      · exact ⟨rfl, .starBehindWord hk ‹_›⟩
      · exact ⟨rfl, .starBehindClosing hk ‹_›⟩
      · exact ⟨rfl, .starBehindStar hk ‹_›⟩
    | word =>
      simp only [hk, word] at h
      split at h
      · cases h
        exact ⟨rfl, .wordBehindClosing hk ‹_›⟩
      · split at h <;> cases h
    | opening =>
      simp only [hk, opening] at h
      split at h
      · rename_i kind' place' hfault
        cases h
        exact ⟨rfl, .openingFault hk hfault⟩
      rename_i hfault
      split at h
      · cases h
        exact ⟨rfl, .tooDeep hk hfault ‹_›⟩
      rename_i hfull
      split at h <;> cases h
      exact ⟨rfl, .noOwner hk hfault (Bool.not_eq_true _ ▸ hfull) ‹_›⟩
    | closing =>
      simp only [hk, closing] at h
      split at h
      · cases h
        exact ⟨rfl, .closingBehindStar hk ‹_›⟩
      rename_i hb
      split at h
      · cases h
        exact ⟨rfl, .unopened hk hb ‹_›⟩
      rename_i hblocks
      split at h <;> cases h
      rename_i hempty
      exact ⟨rfl, .empty hk hb hblocks (List.isEmpty_iff.1 hempty)⟩
    | space =>
      simp only [hk, space] at h
      split at h <;> cases h
      exact ⟨rfl, .spaceBehindStar hk ‹_›⟩
  · rintro ⟨rfl, h⟩
    cases h with
    | starBehindWord hk hb | starBehindClosing hk hb | starBehindStar hk hb =>
      simp [take, hk, star, hb]
    | wordBehindClosing hk hb => simp [take, hk, word, hb]
    | openingFault hk h => simp [take, hk, opening, h]
    | tooDeep hk h hfull => simp [take, hk, opening, h, hfull]
    | noOwner hk h hfull hcurrent => simp [take, hk, opening, h, hfull, hcurrent]
    | closingBehindStar hk hb => simp [take, hk, closing, hb]
    | unopened hk hb hblocks => simp [take, hk, closing, hb, hblocks]
    | empty hk hb hblocks hnil => simp [take, hk, closing, hb, hblocks, hnil]
    | spaceBehindStar hk hb => simp [take, hk, space, hb]

end State

/-! ## Syntax errors -/

/-- A syntax error is found by a token that is refused, or at the end. -/
theorem parse_eq_parse_error {parser : Parser} {input text : String} {kind : ParseErrorKind}
    {place : Nat} (h : parser.parse input = .error (.parse kind place text)) :
    (∃ before c after st, input.toList = before ++ c :: after ∧
      State.run parser input 0 before {} = .ok st ∧ st.Stops (c :: after) ∧ text = input ∧
      State.Refuses parser st (first (String.ofList before).utf8ByteSize c after) kind place) ∨
    ∃ st, State.run parser input 0 input.toList {} = .ok st ∧
      st.finish input = .error (.parse kind place text) := by
  rw [parse_eq] at h
  cases hrun : State.run parser input 0 input.toList {} with
  | error e =>
    rw [hrun] at h
    cases h
    have hstart : ({} : State).Stops input.toList := fun c _ => ⟨nofun, nofun⟩
    obtain ⟨before, c, after, st, hsplit, hread, hstops, hstep⟩ := State.run_eq_error hstart hrun
    rw [Nat.zero_add, State.step_eq_parse_error_iff] at hstep
    exact Or.inl ⟨before, c, after, st, hsplit, hread, hstops, hstep⟩
  | ok st =>
    rw [hrun] at h
    exact Or.inr ⟨st, rfl, h⟩

end ScopeGrant.Parser
