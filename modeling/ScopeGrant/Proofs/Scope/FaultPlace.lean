import Mathlib
import ScopeGrant.Proofs.Scope.Balance
import ScopeGrant.Proofs.Scope.Refusal

/-!
# Where syntax errors point

A syntax error carries the text and the byte offset of one of its characters. Some faults show at
the token that is refused. Others show only later: a star has to wait for the next token, and a
bracket until it is closed or the text ends, so the state remembers where they stand. What it
remembers is right at every token (`Tracks`). Together with the reasons for which a token is refused
this tells what stands at the place of each fault (`FaultAt`).
-/

namespace ScopeGrant.Parser

open Scope Token

/-! ## What is read last -/

/-- How a text ends, judged by what it leaves standing before the next token. -/
inductive EndsAs : Before → List Char → Prop where
  | start : EndsAs .start []
  | space {text gap : List Char} (hgap : IsGap gap) (hne : gap ≠ []) : EndsAs .space (text ++ gap)
  | optional {text : List Char} : EndsAs .optional (text ++ ['*'])
  | word {text : List Char} {c : Char} (hc : isReserved c = false) : EndsAs .word (text ++ [c])
  | opening {text : List Char} : EndsAs .opening (text ++ ['['])
  | closing {text : List Char} : EndsAs .closing (text ++ [']'])

theorem endsAs_of_fits {token : Token} (h : token.Fits) (text : List Char) :
    EndsAs (.ofKind token.kind) (text ++ token.text.toList) := by
  unfold Token.Fits at h
  cases hk : token.kind with
  | optional =>
    simp only [hk] at h
    rw [h]
    exact .optional
  | word =>
    simp only [hk] at h
    obtain ⟨cs, c, hcs⟩ := List.eq_nil_or_concat' token.text.toList |>.resolve_left h.toList_ne_nil
    rw [hcs, ← List.append_assoc]
    exact .word (h.2 c (by simp [hcs]))
  | opening =>
    simp only [hk] at h
    rw [h]
    exact .opening
  | closing =>
    simp only [hk] at h
    rw [h]
    exact .closing
  | space =>
    simp only [hk] at h
    exact .space h.2 h.1

/-- Only a word ends with a character that is not reserved. -/
theorem EndsAs.isReserved_getLast {before : Before} {text : List Char} (h : EndsAs before text)
    (hne : before ≠ .word) : ∀ c ∈ text.getLast?, isReserved c = true := by
  cases h with
  | start => simp
  | space hgap hgapne =>
    intro c hc
    rw [List.getLast?_append_of_ne_nil _ hgapne] at hc
    exact isReserved_of_isBlank (hgap c (List.mem_of_getLast? hc))
  | word hc => exact absurd rfl hne
  | optional | opening | closing => simp [isReserved]

/-! ## What the state remembers -/

/-- What the state remembers of the text that has been read: what stands before the next token and
before the last blank stretch, where the last star stands, and where the open brackets do. -/
structure Tracks (st : State) (text : List Char) : Prop where
  ends : EndsAs st.before text
  spaced : st.before = .space → ∃ outer gap, text = outer ++ gap ∧ IsGap gap ∧ gap ≠ [] ∧
    EndsAs st.beforeSpace outer
  starred : st.before = .optional → ∃ outer, text = outer ++ ['*'] ∧
    st.optionalAt = (String.ofList outer).utf8ByteSize ∧
    ∀ c ∈ outer.getLast?, isReserved c = true
  leftOpen : LeftOpen (st.blocks.map (·.openedAt)) text

namespace State

variable {parser : Parser} {input : String} {st next : State} {token : Token}

theorem map_openedAt_setCurrent (st : State) (scopes : List Scope) :
    (st.setCurrent scopes).blocks.map (·.openedAt) = st.blocks.map (·.openedAt) := by
  cases hb : st.blocks <;> simp [setCurrent, hb]

end State

namespace Tracks

variable {parser : Parser} {input : String} {st next final : State} {text : List Char}

/-- Behind anything but a blank stretch and a star, the ends and the open brackets are all there is
to remember. -/
theorem of_ends (hends : EndsAs st.before text) (hspace : st.before ≠ .space)
    (hstar : st.before ≠ .optional) (hopen : LeftOpen (st.blocks.map (·.openedAt)) text) :
    Tracks st text :=
  ⟨hends, fun hb => absurd hb hspace, fun hb => absurd hb hstar, hopen⟩

theorem init : Tracks {} [] :=
  of_ends .start (by simp) (by simp) (.none balanced_nil)

/-- Every token that is taken in leaves the state right about the text with the token. -/
theorem step {token : Token} (h : Tracks st text) (hfits : token.Fits)
    (hposition : token.position = (String.ofList text).utf8ByteSize)
    (hs : st.step parser input token = .ok next) : Tracks next (text ++ token.text.toList) := by
  have hends := endsAs_of_fits hfits text
  rw [State.step_eq] at hs
  obtain ⟨taken, htaken, hs⟩ := bind_eq_ok_iff.1 hs
  cases hs
  unfold State.take at htaken
  unfold Token.Fits at hfits
  cases hk : token.kind with
  | optional =>
    simp only [hk] at htaken hfits hends
    have hb : st.before ≠ .word := by
      intro hb
      simp [State.star, hb] at htaken
    obtain rfl := State.star_eq_ok htaken
    refine ⟨hends, by simp [Before.ofKind], fun _ => ?_, ?_⟩
    · exact ⟨text, by rw [hfits], hposition, h.ends.isReserved_getLast hb⟩
    · rw [hfits]
      exact h.leftOpen.append (Unbracketed.balanced (by simp [Unbracketed]))
  | word =>
    simp only [hk] at htaken hfits hends
    obtain rfl := State.word_eq_ok htaken
    refine of_ends hends (by simp [Before.ofKind]) (by simp [Before.ofKind]) ?_
    rw [State.push]
    simp only [State.map_openedAt_setCurrent]
    exact h.leftOpen.append (unbracketed_of_isValue hfits).balanced
  | opening =>
    simp only [hk] at htaken hfits hends
    obtain ⟨-, owner, others, -, rfl⟩ := State.opening_eq_ok htaken
    refine of_ends hends (by simp [Before.ofKind]) (by simp [Before.ofKind]) ?_
    simp only [State.withBlock, List.map_cons, State.map_openedAt_setCurrent]
    rw [hfits, hposition]
    exact h.leftOpen.opening
  | closing =>
    simp only [hk] at htaken hfits hends
    obtain ⟨-, block, blocks, hblocks, -, rfl⟩ := State.closing_eq_ok htaken
    have hopen := h.leftOpen
    rw [hblocks, List.map_cons] at hopen
    refine of_ends hends (by simp [Before.ofKind]) (by simp [Before.ofKind]) ?_
    rw [State.push]
    simp only [State.map_openedAt_setCurrent]
    rw [hfits]
    exact hopen.closing
  | space =>
    simp only [hk] at htaken hfits hends
    obtain rfl := State.space_eq_ok htaken
    refine ⟨hends, fun _ => ⟨text, _, rfl, hfits.2, hfits.1, h.ends⟩,
      by simp [Before.ofKind], ?_⟩
    exact h.leftOpen.append (unbracketed_of_isGap hfits.2).balanced

/-- So does every run over a text. -/
theorem run {position : Nat} {rest : List Char} (h : Tracks st text)
    (hposition : position = (String.ofList text).utf8ByteSize)
    (hs : st.run parser input position rest = .ok final) : Tracks final (text ++ rest) := by
  induction position, rest using tokensFrom.induct generalizing st text with
  | case1 position =>
    rw [State.run_nil] at hs
    cases hs
    rwa [List.append_nil]
  | case2 position c rest ih =>
    rw [State.run_of_tokensFrom (tokensFrom.eq_2 position c rest)] at hs
    obtain ⟨next, hstep, hs⟩ := bind_eq_ok_iff.1 hs
    have hnext := h.step (first_fits position c rest) hposition hstep
    have hstop : (first position c rest).stop =
        (String.ofList (text ++ (first position c rest).text.toList)).utf8ByteSize := by
      rw [String.ofList_append, String.utf8ByteSize_append, String.ofList_toList, ← hposition]
      rfl
    have hfinal := ih hnext hstop hs
    rwa [List.append_assoc, toList_first_append] at hfinal

end Tracks

/-! ## What stands at the place of a fault -/

/-- What a fault of the grammar points at: the character `c`, behind `before` and in front of
`after`. -/
inductive FaultAt : ParseErrorKind → List Char → Char → List Char → Prop where
  | danglingOptional {before after : List Char} : FaultAt .danglingOptional before '*' after
  | optionalNotAdjacent {before after : List Char} : FaultAt .optionalNotAdjacent before '*' after
  | unattachedBracket {before after : List Char} : FaultAt .unattachedBracket before '[' after
  /-- The blank stretch before the bracket follows a word or a closing bracket. -/
  | spaceBeforeBracket {outer gap after : List Char} {c : Char}
      (hc : isReserved c = false ∨ c = ']') (hgap : IsGap gap) (hne : gap ≠ []) :
      FaultAt .spaceBeforeBracket (outer ++ c :: gap) '[' after
  | tooDeep {before after : List Char} : FaultAt .tooDeep before '[' after
  | emptyBrackets {before gap after : List Char} (hgap : IsGap gap) :
      FaultAt .emptyBrackets before '[' (gap ++ ']' :: after)
  /-- The bracket has no partner, and each one that opens behind it has. -/
  | unclosedBracket {before after : List Char} (hopen : ¬ Closes after)
      (hinner : ∀ inner behind, after = inner ++ '[' :: behind → Closes behind) :
      FaultAt .unclosedBracket before '[' after
  | unopenedBracket {before after : List Char} (h : Balanced before) :
      FaultAt .unopenedBracket before ']' after
  /-- A star or a word directly behind a closing bracket. -/
  | missingSeparator {outer after : List Char} {c : Char} (hc : c = '*' ∨ isReserved c = false) :
      FaultAt .missingSeparator (outer ++ [']']) c after

namespace Tracks

variable {parser : Parser} {st : State} {text outer : List Char} {ds : List Scope}
  {block : Block} {blocks : List Block}

/-- The innermost open bracket stands where its block says, and the text behind it is balanced. -/
theorem exists_innermost (h : Tracks st text) (hblocks : st.blocks = block :: blocks) :
    ∃ before inner, text = before ++ '[' :: inner ∧
      block.openedAt = (String.ofList before).utf8ByteSize ∧ Balanced inner := by
  have hopen := h.leftOpen
  rw [hblocks, List.map_cons] at hopen
  generalize block.openedAt = place at hopen
  cases hopen with
  | @bracket _ before inner _ hinner => exact ⟨before, inner, rfl, rfl, hinner⟩

/-- Where no scope has been read inside the innermost brackets there is only blank text, unless a
star waits for its value. -/
theorem exists_gap (h : Tracks st text) {outer row : List Char}
    (hread : Reads st.before st outer ds row) (htext : outer ++ row = text)
    (hblocks : st.blocks = block :: blocks) (hnil : block.scopes = [])
    (hb : st.before ≠ .optional) :
    ∃ before gap, text = before ++ '[' :: gap ∧
      block.openedAt = (String.ofList before).utf8ByteSize ∧ IsGap gap := by
  obtain ⟨before, inner, hinnermost, hplace, hinner⟩ := h.exists_innermost hblocks
  have hgap : IsGap row := by
    have hds : ds = [] := by
      have hscopes := hread.scopes
      rw [State.current, hblocks] at hscopes
      simpa [hnil] using hscopes
    have hexpr := hread.row.expression hb
    rw [hds] at hexpr
    cases hexpr with
    | blank hgap => exact hgap
    | row _ hbody _ => exact absurd rfl hbody.ne_nil
  -- both splits of the text end in a bracket with balanced text behind it, so they are one
  have hopened := hread.opened
  rw [hblocks] at hopened
  cases hopened with
  | @block _ outer' text' _ scopes v o openedAt =>
    have hsame : before ++ '[' :: inner = (outer' ++ (text' ++ heading v o)) ++ '[' :: row := by
      rw [← hinnermost, ← htext]
      simp
    obtain ⟨rfl, rfl⟩ := eq_of_append_opening hsame hinner (unbracketed_of_isGap hgap).balanced
    exact ⟨_, _, hinnermost, hplace, hgap⟩

/-- The star that waits for its value stands where the state says. -/
theorem exists_star (h : Tracks st text) (hb : st.before = .optional) (more : List Char) :
    ∃ before, text ++ more = before ++ '*' :: more ∧
      st.optionalAt = (String.ofList before).utf8ByteSize := by
  obtain ⟨before, rfl, hplace, -⟩ := h.starred hb
  exact ⟨before, by simp, hplace⟩

theorem exists_faultAt_of_openingFault? {kind : ParseErrorKind} {place : Nat} {rest : List Char}
    (h : Tracks st text)
    (hfault : st.openingFault? (String.ofList text).utf8ByteSize = some (kind, place)) :
    ∃ before c after, text ++ '[' :: rest = before ++ c :: after ∧
      place = (String.ofList before).utf8ByteSize ∧ FaultAt kind before c after := by
  unfold State.openingFault? at hfault
  split at hfault
  · cases hfault
  · rename_i hb
    cases hfault
    obtain ⟨before, htext, hplace⟩ := h.exists_star hb ('[' :: rest)
    exact ⟨before, '*', _, htext, hplace, .optionalNotAdjacent⟩
  · rename_i hb
    split at hfault
    · rename_i hspace
      cases hfault
      obtain ⟨outer, gap, rfl, hgap, hne, hends⟩ := h.spaced hb
      refine ⟨outer ++ gap, '[', rest, rfl, rfl, ?_⟩
      rcases hspace with hspace | hspace
      · rw [hspace] at hends
        cases hends with
        | word hc =>
          rw [List.append_assoc]
          exact .spaceBeforeBracket (Or.inl hc) hgap hne
      · rw [hspace] at hends
        cases hends with
        | closing =>
          rw [List.append_assoc]
          exact .spaceBeforeBracket (Or.inr rfl) hgap hne
    · cases hfault
      exact ⟨text, '[', rest, rfl, rfl, .unattachedBracket⟩
  all_goals
    cases hfault
    exact ⟨text, '[', rest, rfl, rfl, .unattachedBracket⟩

/-- Whatever a token is refused for, the fault is pointed at. -/
theorem exists_faultAt {token : Token} {kind : ParseErrorKind} {place : Nat} {outer row : List Char}
    (h : Tracks st text) (hread : Reads st.before st outer ds row) (htext : outer ++ row = text)
    (hfits : token.Fits) (hposition : token.position = (String.ofList text).utf8ByteSize)
    (hrefused : State.Refuses parser st token kind place) (rest : List Char) :
    ∃ before c after, text ++ (token.text.toList ++ rest) = before ++ c :: after ∧
      place = (String.ofList before).utf8ByteSize ∧ FaultAt kind before c after := by
  have hstar : st.before = .optional → ∃ before, text ++ (token.text.toList ++ rest) =
      before ++ '*' :: (token.text.toList ++ rest) ∧
        st.optionalAt = (String.ofList before).utf8ByteSize := fun hb => h.exists_star hb _
  have hclosing : st.before = .closing → ∃ outer, text = outer ++ [']'] := by
    intro hb
    have hends := h.ends
    rw [hb] at hends
    cases hends with
    | closing => exact ⟨_, rfl⟩
  unfold Token.Fits at hfits
  cases hrefused with
  | starBehindWord hk hb =>
    simp only [hk] at hfits
    exact ⟨text, '*', rest, by simp [hfits], hposition, .danglingOptional⟩
  | starBehindClosing hk hb =>
    simp only [hk] at hfits
    obtain ⟨outer, rfl⟩ := hclosing hb
    exact ⟨_, '*', rest, by simp [hfits], hposition, .missingSeparator (Or.inl rfl)⟩
  | starBehindStar hk hb =>
    obtain ⟨before, hsplit, hplace⟩ := hstar hb
    exact ⟨before, '*', _, hsplit, hplace, .optionalNotAdjacent⟩
  | wordBehindClosing hk hb =>
    simp only [hk] at hfits
    obtain ⟨outer, rfl⟩ := hclosing hb
    obtain ⟨c, cs, hcs⟩ := List.exists_cons_of_ne_nil hfits.toList_ne_nil
    have hc : isReserved c = false := hfits.2 c (by simp [hcs])
    exact ⟨_, c, cs ++ rest, by simp [hcs], hposition, .missingSeparator (Or.inr hc)⟩
  | openingFault hk hfault =>
    simp only [hk] at hfits
    rw [hposition] at hfault
    rw [hfits]
    exact h.exists_faultAt_of_openingFault? hfault
  | tooDeep hk hfault hfull =>
    simp only [hk] at hfits
    exact ⟨text, '[', rest, by simp [hfits], hposition, .tooDeep⟩
  | noOwner hk hfault hfull hcurrent =>
    simp only [hk] at hfits
    exact ⟨text, '[', rest, by simp [hfits], hposition, .unattachedBracket⟩
  | closingBehindStar hk hb =>
    obtain ⟨before, hsplit, hplace⟩ := hstar hb
    exact ⟨before, '*', _, hsplit, hplace, .danglingOptional⟩
  | unopened hk hb hblocks =>
    simp only [hk] at hfits
    have hopen := h.leftOpen
    rw [hblocks] at hopen
    cases hopen with
    | none hbalanced =>
      exact ⟨text, ']', rest, by simp [hfits], hposition, .unopenedBracket hbalanced⟩
  | empty hk hb hblocks hnil =>
    simp only [hk] at hfits
    obtain ⟨before, gap, rfl, hplace, hgap⟩ := h.exists_gap hread htext hblocks hnil hb
    exact ⟨before, '[', gap ++ ']' :: rest, by simp [hfits], hplace, .emptyBrackets hgap⟩
  | spaceBehindStar hk hb =>
    obtain ⟨before, hsplit, hplace⟩ := hstar hb
    exact ⟨before, '*', _, hsplit, hplace, .optionalNotAdjacent⟩

theorem exists_faultAt_of_finish {kind : ParseErrorKind} {place : Nat} {input text' : String}
    (h : Tracks st text) (hfinish : st.finish input = .error (.parse kind place text')) :
    text' = input ∧ ∃ before c after, text = before ++ c :: after ∧
      place = (String.ofList before).utf8ByteSize ∧ FaultAt kind before c after := by
  unfold State.finish at hfinish
  split at hfinish
  · rename_i hb
    cases hfinish
    obtain ⟨before, htext, hplace⟩ := h.exists_star hb []
    exact ⟨rfl, before, '*', [], by simpa using htext, hplace, .danglingOptional⟩
  split at hfinish
  · rename_i hblocks
    cases hfinish
    obtain ⟨before, inner, rfl, hplace, hinner⟩ := h.exists_innermost hblocks
    refine ⟨rfl, before, '[', inner, rfl, hplace, .unclosedBracket hinner.not_closes ?_⟩
    rintro xs ys rfl
    exact hinner.closes
  · cases hfinish

end Tracks

theorem tracks_of_run {parser : Parser} {input : String} {text : List Char} {st : State}
    (h : State.run parser input 0 text {} = .ok st) : Tracks st text :=
  Tracks.init.run rfl h

theorem exists_faultAt_of_parse {parser : Parser} {input text : String} {kind : ParseErrorKind}
    {place : Nat} (h : parser.parse input = .error (.parse kind place text)) :
    text = input ∧ ∃ before c after, input.toList = before ++ c :: after ∧
      place = (String.ofList before).utf8ByteSize ∧ FaultAt kind before c after := by
  rcases parse_eq_parse_error h with ⟨before, c, after, st, hsplit, hrun, -, rfl, hrefused⟩ |
    ⟨st, hrun, hfinish⟩
  · obtain ⟨outer, ds, row, htext, hread⟩ := Reads.init.run (by simp) hrun
    have hpoint := (tracks_of_run hrun).exists_faultAt hread htext (first_fits _ c after) rfl
      hrefused (afterFirst c after)
    rw [toList_first_append, ← hsplit] at hpoint
    exact ⟨rfl, hpoint⟩
  · exact (tracks_of_run hrun).exists_faultAt_of_finish hfinish

/-- Reading a single scope fails with a syntax error only if reading the expression does. -/
theorem parse_of_parseOne_eq_error {parser : Parser} {input text : String} {kind : ParseErrorKind}
    {place : Nat} (h : parser.parseOne input = .error (.parse kind place text)) :
    parser.parse input = .error (.parse kind place text) := by
  unfold parseOne at h
  split at h
  · cases h
  split at h
  · rename_i e he
    cases h
    exact he
  · cases h
  · cases h

/-- A syntax error carries the text and the byte offset of the character in it that its kind is
about, and no syntax error is about a value in itself. -/
theorem parse_error_points_at_fault (parser : Parser) (input : String) :
    ∀ kind place text, parser.parse input = .error (.parse kind place text) ∨
        parser.parseOne input = .error (.parse kind place text) →
      text = input ∧ kind ≠ .invalidToken ∧
      ∃ before c after, input.toList = before ++ c :: after ∧
        place = (String.ofList before).utf8ByteSize ∧ FaultAt kind before c after := by
  intro kind place text h
  have hparse : parser.parse input = .error (.parse kind place text) :=
    h.elim id parse_of_parseOne_eq_error
  obtain ⟨htext, before, c, after, hsplit, hplace, hfault⟩ := exists_faultAt_of_parse hparse
  refine ⟨htext, ?_, before, c, after, hsplit, hplace, hfault⟩
  rintro rfl
  cases hfault

/-- At the end of the first text two brackets are open, and the inner one is reported, which stands
behind five characters of six bytes. In the second text the reader, which lets one bracket open,
comes to empty brackets and points at where they open. -/
theorem parse_error_points_at_fault_of_two_texts :
    Scope.parse "é a[b[c[d] e" = .error (.parse .unclosedBracket 6 "é a[b[c[d] e") ∧
    (∃ before after, "é a[b[c[d] e".toList = before ++ '[' :: after ∧
      6 = (String.ofList before).utf8ByteSize ∧ ¬ Closes after) ∧
    Parser.parse ⟨some 1⟩ "é[b] a[ \t] c[" =
      .error (.parse .emptyBrackets 7 "é[b] a[ \t] c[") ∧
    ∃ before gap after, "é[b] a[ \t] c[".toList = before ++ '[' :: (gap ++ ']' :: after) ∧
      7 = (String.ofList before).utf8ByteSize ∧ IsGap gap := by
  have hunclosed : Parser.parse {} "é a[b[c[d] e" =
      .error (.parse .unclosedBracket 6 "é a[b[c[d] e") := by cbv
  have hempty : Parser.parse ⟨some 1⟩ "é[b] a[ \t] c[" =
      .error (.parse .emptyBrackets 7 "é[b] a[ \t] c[") := by cbv
  refine ⟨hunclosed, ?_, hempty, ?_⟩
  · obtain ⟨-, -, before, c, after, hsplit, hplace, hfault⟩ :=
      parse_error_points_at_fault {} _ _ _ _ (Or.inl hunclosed)
    cases hfault with
    | unclosedBracket hopen hinner => exact ⟨before, after, hsplit, hplace, hopen⟩
  · obtain ⟨-, -, before, c, after, hsplit, hplace, hfault⟩ :=
      parse_error_points_at_fault ⟨some 1⟩ _ _ _ _ (Or.inl hempty)
    cases hfault with
    | emptyBrackets hgap => exact ⟨before, _, _, hsplit, hplace, hgap⟩

end ScopeGrant.Parser
