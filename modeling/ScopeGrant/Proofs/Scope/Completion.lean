import ScopeGrant.Proofs.Scope.Acceptance
import ScopeGrant.Proofs.Scope.FaultPlace

/-!
# What more text can repair

A token that is refused is refused in every longer text as well: the tokens before it are the same
there, and if it is longer itself, that does not matter for what it is refused for. So a syntax
error stays, unless it is about the end of the text (`parse_append_eq_error`). From every state that
the reader can reach there is a way to an accepted text: a value, where one has to follow, that is
none of the owners, and then as many closing brackets as are open (`exists_completion`).
-/

namespace ScopeGrant.Parser

open Scope Token

namespace State

variable {parser : Parser} {input text : String} {st next final : State} {token : Token}
  {kind : ParseErrorKind} {place position : Nat}

/-! ## Faults that stay -/

/-- A longer token of the same kind is refused as well. -/
theorem Refuses.of_kind {token' : Token} (h : Refuses parser st token kind place)
    (hkind : token'.kind = token.kind) (hposition : token'.position = token.position) :
    Refuses parser st token' kind place := by
  cases h with
  | starBehindWord hk hb => exact hposition ▸ .starBehindWord (hkind.trans hk) hb
  | starBehindClosing hk hb => exact hposition ▸ .starBehindClosing (hkind.trans hk) hb
  | starBehindStar hk hb => exact .starBehindStar (hkind.trans hk) hb
  | wordBehindClosing hk hb => exact hposition ▸ .wordBehindClosing (hkind.trans hk) hb
  | openingFault hk h => exact .openingFault (hkind.trans hk) (hposition ▸ h)
  | tooDeep hk h hfull => exact hposition ▸ .tooDeep (hkind.trans hk) (hposition ▸ h) hfull
  | noOwner hk h hfull hcurrent =>
    exact hposition ▸ .noOwner (hkind.trans hk) (hposition ▸ h) hfull hcurrent
  | closingBehindStar hk hb => exact .closingBehindStar (hkind.trans hk) hb
  | unopened hk hb hblocks => exact hposition ▸ .unopened (hkind.trans hk) hb hblocks
  | empty hk hb hblocks hnil => exact .empty (hkind.trans hk) hb hblocks hnil
  | spaceBehindStar hk hb => exact .spaceBehindStar (hkind.trans hk) hb

/-- The text that errors carry does not matter where there is none. -/
theorem step_eq_ok_of_input (h : st.step parser input token = .ok next) (input' : String) :
    st.step parser input' token = .ok next := by
  rw [step_eq] at h ⊢
  obtain ⟨taken, htaken, h⟩ := bind_eq_ok_iff.1 h
  refine bind_eq_ok_iff.2 ⟨taken, ?_, h⟩
  unfold take at htaken ⊢
  cases hk : token.kind with
  | optional =>
    simp only [hk, star] at htaken ⊢
    split at htaken <;> simp_all
  | word =>
    simp only [hk, word] at htaken ⊢
    split at htaken
    · cases htaken
    · split at htaken <;> simp_all
  | opening =>
    simp only [hk, opening] at htaken ⊢
    split at htaken
    · cases htaken
    split at htaken
    · cases htaken
    · split at htaken <;> simp_all
  | closing =>
    simp only [hk, closing] at htaken ⊢
    split at htaken
    · cases htaken
    split at htaken
    · cases htaken
    · split at htaken <;> simp_all
  | space =>
    simp only [hk, space] at htaken ⊢
    split at htaken <;> simp_all

theorem run_eq_ok_of_input {text : List Char} (h : st.run parser input position text = .ok final)
    (input' : String) : st.run parser input' position text = .ok final := by
  unfold run at h ⊢
  generalize tokensFrom position text = tokens at h ⊢
  induction tokens generalizing st with
  | nil => exact h
  | cons token tokens ih =>
    rw [List.foldlM_cons] at h ⊢
    obtain ⟨next, hstep, hrest⟩ := bind_eq_ok_iff.1 h
    exact bind_eq_ok_iff.2 ⟨next, step_eq_ok_of_input hstep input', ih hrest⟩

theorem run_eq_error_of_refuses {c : Char} {rest : List Char}
    (h : Refuses parser st (first position c rest) kind place) (more : List Char) :
    st.run parser input position (c :: (rest ++ more)) = .error (.parse kind place input) := by
  have hrefused : Refuses parser st (first position c (rest ++ more)) kind place :=
    h.of_kind rfl rfl
  rw [run_of_tokensFrom (tokensFrom.eq_2 position c _),
    step_eq_parse_error_iff.2 ⟨rfl, hrefused⟩, error_bind]

theorem finish_eq_parse_error
    (h : st.finish input = .error (.parse kind place text)) :
    (st.before = .optional ∧ kind = .danglingOptional ∧ place = st.optionalAt) ∨
      kind = .unclosedBracket := by
  unfold finish at h
  split at h
  · cases h
    exact Or.inl ⟨‹_›, rfl, rfl⟩
  split at h <;> cases h
  exact Or.inr rfl

end State

/-- The text ends with a star, at this byte offset, which does not stand directly behind a word. -/
def EndsInStar (text : List Char) (place : Nat) : Prop :=
  ∃ before, text = before ++ ['*'] ∧ place = (String.ofList before).utf8ByteSize ∧
    ∀ c ∈ before.getLast?, isReserved c = true

/-- A syntax error that is not about the end of the text stays, whatever follows. -/
theorem parse_append_eq_error {parser : Parser} {s text : String} {kind : ParseErrorKind}
    {place : Nat} (h : parser.parse s = .error (.parse kind place text))
    (hunclosed : kind ≠ .unclosedBracket)
    (hstar : ¬ (kind = .danglingOptional ∧ EndsInStar s.toList place)) (w : String) :
    parser.parse (s ++ w) = .error (.parse kind place (s ++ w)) := by
  rcases parse_eq_parse_error h with ⟨before, c, after, st, hsplit, hrun, hstops, -, hrefused⟩ |
    ⟨st, hrun, hfinish⟩
  · have htext : (s ++ w).toList = before ++ c :: (after ++ w.toList) := by
      rw [String.toList_append, hsplit, List.append_assoc, List.cons_append]
    have hlonger : st.Stops (c :: (after ++ w.toList)) := hstops
    rw [parse_eq, htext, State.run_append (State.run_eq_ok_of_input hrun _) hlonger, Nat.zero_add,
      State.run_eq_error_of_refuses hrefused, error_bind]
  · rcases State.finish_eq_parse_error hfinish with ⟨hb, rfl, rfl⟩ | rfl
    · exact absurd ⟨rfl, (tracks_of_run hrun).starred hb⟩ hstar
    · exact absurd rfl hunclosed

/-! ## Ways to the end -/

theorem exists_fresh_value (owners : List String) : ∃ v, IsValue v ∧ v ∉ owners := by
  let name (n : Nat) : String := String.ofList (List.replicate (n + 1) 'a')
  have hname : Function.Injective name := by
    intro m n h
    have hlength := congrArg (fun v => v.toList.length) h
    simpa [name] using hlength
  obtain ⟨v, ⟨n, rfl⟩, hfresh⟩ :=
    (Set.infinite_range_of_injective hname).exists_notMem_finset owners.toFinset
  refine ⟨name n, ⟨?_, ?_⟩, by simpa using hfresh⟩
  · intro hempty
    simpa [name] using congrArg String.toList hempty
  · intro c hc
    simp only [name, String.toList_ofList] at hc
    rw [List.eq_of_mem_replicate hc]
    decide

namespace State

/-- Brackets that have something inside can be closed, one after the other. -/
theorem exists_finish_of_closings (input : String) {st : State} (position : Nat)
    (hb : st.before ≠ .optional) (hrow : st.current ≠ [] ∨ st.blocks = []) :
    ∃ scopes, st.run {} input position (List.replicate st.blocks.length ']') >>= finish input =
      .ok scopes := by
  -- on the number of open brackets: closing the innermost puts its owner into the row outside
  induction hn : st.blocks.length generalizing st position with
  | zero =>
    have hblocks : st.blocks = [] := List.length_eq_zero_iff.1 hn
    rw [List.replicate_zero, run_nil, ok_bind, finish, if_neg hb, hblocks]
    exact ⟨_, rfl⟩
  | succ n ih =>
    obtain ⟨block, blocks, hblocks⟩ := List.exists_cons_of_length_eq_add_one hn
    have hne : block.scopes ≠ [] := by
      rcases hrow with hrow | hrow
      · rwa [current, hblocks] at hrow
      · rw [hblocks] at hrow
        cases hrow
    obtain ⟨position', hrun⟩ :=
      run_closing {} input position hb hblocks hne (List.replicate n ']')
    rw [List.replicate_succ, hrun]
    refine ih position' (by simp) (Or.inl ?_) ?_
    · change (push _ _).current ≠ []
      rw [push, current_setCurrent]
      exact List.cons_ne_nil _ _
    · change (push _ _).blocks.length = n
      rw [push, length_blocks_setCurrent, withoutBlock]
      simpa [hblocks] using hn

theorem Beside.length_blocks {st next : State} (h : Beside st next) :
    next.blocks.length = st.blocks.length := by
  have hlength := congrArg List.length h.ownerChain
  simpa only [State.ownerChain, List.length_reverse, List.length_map] using hlength

end State

theorem Reads.current_ne_nil {before : Before} {st : State} {outer text : List Char}
    {ds : List Scope} (h : Reads before st outer ds text)
    (hb : before = .word ∨ before = .closing) : st.current ≠ [] := by
  have hne : ds ≠ [] := by
    have hrow := h.row
    rcases hb with rfl | rfl
    · cases hrow with
      | word => simp
    · cases hrow with
      | closing hfull =>
        cases hfull with
        | mk _ hterms => exact hterms.ne_nil
  intro hnil
  have hscopes := h.scopes
  rw [hnil] at hscopes
  exact hne (by simpa using hscopes)

section Completion

variable {s : String} {st : State}

/-- Behind a text that has been read the run goes on, if its last token is not changed. -/
theorem parse_append_of_run (h : State.run {} s 0 s.toList {} = .ok st) {w : String}
    (hw : st.Stops w.toList) :
    Scope.parse (s ++ w) =
      st.run {} (s ++ w) (String.ofList s.toList).utf8ByteSize w.toList >>=
        State.finish (s ++ w) := by
  rw [Scope.parse, parse_eq, String.toList_append,
    State.run_append (State.run_eq_ok_of_input h _) hw, Nat.zero_add]

/-- Where nothing has to follow, closing what is open is enough. -/
theorem exists_completion_of_closings (h : State.run {} s 0 s.toList {} = .ok st)
    (hb : st.before ≠ .optional) (hrow : st.current ≠ [] ∨ st.blocks = []) :
    ∃ w scopes, Scope.parse (s ++ w) = .ok scopes := by
  let w := String.ofList (List.replicate st.blocks.length ']')
  have hw : w.toList = List.replicate st.blocks.length ']' := String.toList_ofList
  have hstops : st.Stops w.toList := by
    intro c hc
    rw [hw] at hc
    rw [List.eq_of_mem_replicate (List.mem_of_mem_head? hc)]
    exact ⟨fun _ => rfl, fun _ => rfl⟩
  obtain ⟨scopes, hscopes⟩ := st.exists_finish_of_closings (s ++ w)
    (String.ofList s.toList).utf8ByteSize hb hrow
  exact ⟨w, scopes, by rw [parse_append_of_run h hstops, hw, hscopes]⟩

/-- Where a value may follow, one that is none of the owners can be read, and then what is open can
be closed. -/
theorem exists_completion_of_value (h : State.run {} s 0 s.toList {} = .ok st) (howned : st.Owned)
    (hword : st.before ≠ .word) (hclosing : st.before ≠ .closing) :
    ∃ w scopes, Scope.parse (s ++ w) = .ok scopes := by
  obtain ⟨v, hv, hfresh⟩ := exists_fresh_value st.ownerChain
  let w := String.ofList (v.toList ++ List.replicate st.blocks.length ']')
  have hw : w.toList = v.toList ++ List.replicate st.blocks.length ']' := String.toList_ofList
  have hstops : st.Stops w.toList := by
    obtain ⟨x, xs, hx⟩ := List.exists_cons_of_ne_nil hv.toList_ne_nil
    intro c hc
    rw [hw, hx, List.cons_append, List.head?_cons, Option.mem_some] at hc
    subst hc
    exact ⟨fun hb => absurd hb hword, fun _ => (isReserved_eq_false (hv.2 x (by simp [hx]))).1⟩
  have hends : ∀ c ∈ (List.replicate st.blocks.length ']').head?, isReserved c = true := by
    intro c hc
    rw [List.eq_of_mem_replicate (List.mem_of_mem_head? hc)]
    rfl
  rcases run_value {} (s ++ w) (String.ofList s.toList).utf8ByteSize hv hends howned hclosing with
    ⟨hmem, -⟩ | ⟨-, next, position, hrun, hbeside, hcurrent, hnext⟩
  · exact absurd hmem hfresh
  · obtain ⟨scopes, hscopes⟩ := next.exists_finish_of_closings (s ++ w) position
      (by simp [hnext]) (Or.inl (hcurrent ▸ List.cons_ne_nil _ _))
    rw [hbeside.length_blocks] at hscopes
    exact ⟨w, scopes, by rw [parse_append_of_run h hstops, hw, hrun, hscopes]⟩

/-- A text that the reader can read to its end is the beginning of an accepted one. -/
theorem exists_completion (h : State.run {} s 0 s.toList {} = .ok st) :
    ∃ w scopes, Scope.parse (s ++ w) = .ok scopes := by
  obtain ⟨outer, ds, row, -, hread⟩ := Reads.init.run (by simp) h
  by_cases hready : st.before ≠ .optional ∧ (st.current ≠ [] ∨ st.blocks = [])
  · exact exists_completion_of_closings h hready.1 hready.2
  · -- the row is empty, or it has come to a star
    have hends : st.before ≠ .word ∧ st.before ≠ .closing := by
      refine not_or.1 fun hb => hready ⟨?_, Or.inl (hread.current_ne_nil hb)⟩
      rcases hb with hb | hb <;> simp [hb]
    exact exists_completion_of_value h hread.owned hends.1 hends.2

end Completion

/-! ## Texts that can be repaired -/

theorem eq_of_append_of_utf8ByteSize {xs ys xs' ys' : List Char} (h : xs ++ ys = xs' ++ ys')
    (hsize : (String.ofList xs).utf8ByteSize = (String.ofList xs').utf8ByteSize) :
    xs = xs' ∧ ys = ys' := by
  have hnil : ∀ more : List Char, (String.ofList more).utf8ByteSize = 0 → more = [] := by
    intro more hmore
    simpa using congrArg String.toList (String.utf8ByteSize_eq_zero_iff.1 hmore)
  rcases List.append_eq_append_iff.1 h with ⟨more, rfl, hys⟩ | ⟨more, rfl, hys⟩
  · rw [String.ofList_append, String.utf8ByteSize_append] at hsize
    obtain rfl := hnil more (by omega)
    exact ⟨(List.append_nil _).symm, by simpa using hys⟩
  · rw [String.ofList_append, String.utf8ByteSize_append] at hsize
    obtain rfl := hnil more (by omega)
    exact ⟨List.append_nil _, by simpa using hys.symm⟩

/-- A bracket that is never closed is found at the end of the text. -/
theorem exists_run_of_unclosedBracket {parser : Parser} {s text : String} {place : Nat}
    (h : parser.parse s = .error (.parse .unclosedBracket place text)) :
    ∃ st, State.run parser s 0 s.toList {} = .ok st := by
  rcases parse_eq_parse_error h with ⟨before, c, after, st, -, -, -, -, hrefused⟩ | ⟨st, hrun, -⟩
  · cases hrefused with
    | openingFault hk hfault =>
      rcases State.kind_of_openingFault? hfault with hkind | hkind | hkind <;> cases hkind
  · exact ⟨st, hrun⟩

/-- So is a star that the text ends with, unless it stands directly behind a word. -/
theorem exists_run_of_danglingOptional {parser : Parser} {s text : String} {place : Nat}
    (h : parser.parse s = .error (.parse .danglingOptional place text))
    (hstar : EndsInStar s.toList place) : ∃ st, State.run parser s 0 s.toList {} = .ok st := by
  rcases parse_eq_parse_error h with
    ⟨before, c, after, st, hsplit, hrun, -, -, hrefused⟩ | ⟨st, hrun, -⟩
  swap
  · exact ⟨st, hrun⟩
  obtain ⟨outer, htext, hplace, hreserved⟩ := hstar
  rw [htext] at hsplit
  have htracks := tracks_of_run hrun
  exfalso
  cases hrefused with
  | starBehindWord hk hb =>
    obtain ⟨rfl, -⟩ := eq_of_append_of_utf8ByteSize hsplit hplace.symm
    have hends := htracks.ends
    rw [hb] at hends
    cases hends with
    | @word start d hd =>
      have hlast := hreserved d (by simp)
      rw [hd] at hlast
      cases hlast
  | openingFault hk hfault =>
    rcases State.kind_of_openingFault? hfault with hkind | hkind | hkind <;> cases hkind
  | closingBehindStar hk hb =>
    -- the star would be the last character, but a bracket follows it
    obtain ⟨start, rfl, hstart, -⟩ := htracks.starred hb
    rw [List.append_assoc] at hsplit
    obtain ⟨-, hrest⟩ := eq_of_append_of_utf8ByteSize hsplit (hplace.symm.trans hstart)
    simp at hrest

/-- A syntax error stays in every longer text, at the same place, unless it is about a bracket that
is never closed or about a star that the text ends with and that does not stand directly behind a
word. Such a text, like one that is accepted, is the beginning of a text that is accepted. -/
theorem parse_append_stays_refused_or_completes (s : String) :
    (∀ kind place text, Scope.parse s = .error (.parse kind place text) →
      kind ≠ .unclosedBracket → ¬ (kind = .danglingOptional ∧ EndsInStar s.toList place) →
      ∀ w, Scope.parse (s ++ w) = .error (.parse kind place (s ++ w))) ∧
    ((∃ scopes, Scope.parse s = .ok scopes) ∨
      (∃ place text, Scope.parse s = .error (.parse .unclosedBracket place text)) ∨
      (∃ place text, Scope.parse s = .error (.parse .danglingOptional place text) ∧
        EndsInStar s.toList place) →
      ∃ w scopes, Scope.parse (s ++ w) = .ok scopes) := by
  constructor
  · intro kind place text h hunclosed hstar w
    exact parse_append_eq_error h hunclosed hstar w
  · rintro (⟨scopes, h⟩ | ⟨place, text, h⟩ | ⟨place, text, h, hstar⟩)
    · exact ⟨"", scopes, by rwa [String.append_empty]⟩
    · obtain ⟨st, hrun⟩ := exists_run_of_unclosedBracket h
      exact exists_completion hrun
    · obtain ⟨st, hrun⟩ := exists_run_of_danglingOptional h hstar
      exact exists_completion hrun

/-- A star directly behind a word stays a fault, and so does a bracket behind blank text, also when
all that is open is closed; a star behind blank text and two open brackets can be completed. -/
theorem parse_append_stays_refused_or_completes_of_stars :
    Scope.parse "a*" = .error (.parse .danglingOptional 1 "a*") ∧
    Scope.parse ("a*" ++ "b") = .error (.parse .danglingOptional 1 ("a*" ++ "b")) ∧
    Scope.parse "é[b [c" = .error (.parse .spaceBeforeBracket 5 "é[b [c") ∧
    Scope.parse ("é[b [c" ++ "]]") =
      .error (.parse .spaceBeforeBracket 5 ("é[b [c" ++ "]]")) ∧
    Scope.parse "é[b[ *" = .error (.parse .danglingOptional 6 "é[b[ *") ∧
    ∃ w scopes, Scope.parse ("é[b[ *" ++ w) = .ok scopes := by
  have hword : Scope.parse "a*" = .error (.parse .danglingOptional 1 "a*") := by cbv
  have hspace : Scope.parse "é[b [c" = .error (.parse .spaceBeforeBracket 5 "é[b [c") := by cbv
  have hstar : Scope.parse "é[b[ *" = .error (.parse .danglingOptional 6 "é[b[ *") := by cbv
  refine ⟨hword, ?_, hspace, ?_, hstar, ?_⟩
  · refine (parse_append_stays_refused_or_completes "a*").1 _ _ _ hword (by simp) ?_ "b"
    rintro ⟨-, before, htext, -, hreserved⟩
    have htext' : ['a'] ++ ['*'] = before ++ ['*'] := htext
    obtain rfl := List.append_cancel_right htext'
    exact absurd (hreserved 'a' rfl) (by decide)
  · exact (parse_append_stays_refused_or_completes "é[b [c").1 _ _ _ hspace (by simp) (by simp) "]]"
  · refine (parse_append_stays_refused_or_completes "é[b[ *").2
      (Or.inr (Or.inr ⟨_, _, hstar, "é[b[ ".toList, rfl, by decide, ?_⟩))
    intro c hc
    obtain rfl : ' ' = c := Option.some.inj hc
    decide

end ScopeGrant.Parser
