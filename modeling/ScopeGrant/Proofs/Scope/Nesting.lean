import Mathlib
import ScopeGrant.Proofs.Scope.Acceptance
import ScopeGrant.Proofs.Scope.Bracket
import ScopeGrant.Proofs.Scope.Limit

/-!
# Where nesting becomes too deep

A bound allows just the expressions whose trees have at most one level more. What a bounded reader
accepts is not deeper (`depth_le_of_parse`); and where it stops, it does so at the first bracket
that opens while as many are open as it allows (`run_eq_tooDeep`), which leads into a chain of the
written trees that is longer than that. Merging siblings does not shorten chains, so the depth of
the trees that are read is the depth of the brackets in the text.
-/

namespace ScopeGrant.Parser

open Scope Token

namespace State

variable {parser : Parser} {input : String} {st next : State}

theorem length_blocks_lt_of_step {limit : Nat} {token : Token} (hk : token.kind = .opening)
    (hs : st.step ⟨some limit⟩ input token = .ok next) : st.blocks.length < limit := by
  rw [State.step_eq] at hs
  obtain ⟨taken, htaken, -⟩ := bind_eq_ok_iff.1 hs
  rw [take, hk] at htaken
  exact length_blocks_lt_of_opening htaken

/-- There are never more brackets open than the bound allows. -/
theorem length_blocks_le_of_step {limit : Nat} {token : Token} (hfits : token.Fits)
    (hlevel : st.blocks.length ≤ limit) (hs : st.step ⟨some limit⟩ input token = .ok next) :
    next.blocks.length ≤ limit := by
  have hlength := length_blocks_step hfits hs
  rw [hfits.openBrackets_eq] at hlength
  cases hk : token.kind with
  | opening =>
    have hlt := length_blocks_lt_of_step hk hs
    simp only [hk] at hlength
    omega
  | optional | closing | word | space =>
    simp only [hk] at hlength
    omega

/-- No other token than an opening bracket is refused for what the bound says. -/
theorem step_eq_tooDeep {token : Token} {place : Nat} {text : String}
    (hs : st.step parser input token = .error (.parse .tooDeep place text)) :
    token.kind = .opening ∧ place = token.position ∧ st.full parser = true := by
  rcases step_eq_error hs with ⟨kind, place', hkind, he⟩ | ⟨hk, hfull, he⟩ | ⟨-, -, he⟩
  · cases he
    exact absurd rfl hkind
  · cases he
    exact ⟨hk, rfl, hfull⟩
  · cases he

end State

/-- Behind `before` a bracket opens while `level` brackets are open, for the first time in the
text. -/
structure FirstOpening (text : List Char) (level : Int) (before : List Char) : Prop where
  opens : OpensAt text before
  open_eq : openBrackets before = level
  first : ∀ other, OpensAt text other → openBrackets other = level → before.length ≤ other.length

namespace FirstOpening

variable {text before xs ys : List Char} {level : Int}

/-- The first such bracket behind a text in which there is none. -/
theorem append (h : FirstOpening ys (level - openBrackets xs) before)
    (hxs : ∀ other, OpensAt xs other → openBrackets other ≠ level) :
    FirstOpening (xs ++ ys) level (xs ++ before) := by
  refine ⟨opensAt_append_iff.2 (Or.inr ⟨before, rfl, h.opens⟩), ?_, fun other hother hlevel => ?_⟩
  · rw [openBrackets_append, h.open_eq]
    omega
  · rcases opensAt_append_iff.1 hother with hother | ⟨inner, rfl, hinner⟩
    · exact absurd hlevel (hxs other hother)
    · rw [openBrackets_append] at hlevel
      have hle := h.first inner hinner (by omega)
      simp only [List.length_append]
      omega

end FirstOpening

open State

/-- A run that the bound stops has come to the first bracket that opens while as many are open as
the bound allows. -/
theorem run_eq_tooDeep {limit position place : Nat} {input text : String} {st : State}
    {rest : List Char} (hlevel : st.blocks.length ≤ limit)
    (h : st.run ⟨some limit⟩ input position rest = .error (.parse .tooDeep place text)) :
    ∃ before, FirstOpening rest (limit - st.blocks.length) before ∧
      place = position + (String.ofList before).utf8ByteSize := by
  induction hn : rest.length using Nat.strongRecOn generalizing rest st position with
  | ind n ih =>
    subst hn
    cases rest with
    | nil =>
      rw [run_nil] at h
      cases h
    | cons c rest =>
      have hfits := first_fits position c rest
      have htext := toList_first_append position c rest
      rw [run_of_tokensFrom (tokensFrom.eq_2 position c rest)] at h
      cases hstep : st.step ⟨some limit⟩ input (first position c rest) with
      | error e =>
        rw [hstep] at h
        cases h
        obtain ⟨hk, rfl, hfull⟩ := step_eq_tooDeep hstep
        have hlimit : limit ≤ st.blocks.length := of_decide_eq_true hfull
        rw [Token.Fits, hk] at hfits
        rw [← htext, hfits]
        refine ⟨[], ⟨opensAt_cons_iff.2 (Or.inl ⟨rfl, rfl⟩), ?_, fun _ _ _ => Nat.zero_le _⟩, ?_⟩
        · rw [openBrackets_nil]
          omega
        · rfl
      | ok next =>
        rw [hstep, ok_bind] at h
        have hlength := length_blocks_step hfits hstep
        obtain ⟨before, hfirst, hplace⟩ := ih _ (Nat.lt_succ_of_le (length_afterFirst_le c rest))
          (length_blocks_le_of_step hfits hlevel hstep) h rfl
        have hlevel' : (limit : Int) - next.blocks.length = limit - st.blocks.length -
            openBrackets (first position c rest).text.toList := by omega
        rw [hlevel'] at hfirst
        refine ⟨(first position c rest).text.toList ++ before, ?_, ?_⟩
        · rw [← htext]
          refine hfirst.append fun other hother hopen => ?_
          obtain ⟨hk, rfl⟩ := hfits.opensAt hother
          have hlt := length_blocks_lt_of_step hk hstep
          rw [openBrackets_nil] at hopen
          omega
        · rw [hplace, Token.stop, String.ofList_append, String.utf8ByteSize_append,
            String.ofList_toList, ← Nat.add_assoc]
          rfl

/-- A bounded reader that finds an expression nested too deep says so about the first bracket that
opens while as many are open as it allows. -/
theorem firstOpening_of_parse {limit place : Nat} {input text : String}
    (h : Parser.parse ⟨some limit⟩ input = .error (.parse .tooDeep place text)) :
    ∃ before, FirstOpening input.toList limit before ∧
      place = (String.ofList before).utf8ByteSize := by
  rw [parse_eq] at h
  have hrun : State.run ⟨some limit⟩ input 0 input.toList {} =
      .error (.parse .tooDeep place text) := by
    cases hst : State.run ⟨some limit⟩ input 0 input.toList {} with
    | error e =>
      rw [hst] at h
      cases h
      rfl
    | ok st =>
      rw [hst, ok_bind, State.finish] at h
      split at h
      · cases h
      · split at h <;> cases h
  obtain ⟨before, hfirst, hplace⟩ := run_eq_tooDeep (Nat.zero_le limit) hrun
  exact ⟨before, by simpa using hfirst, by simpa using hplace⟩

/-- Where a bracket opens in an accepted expression, one of its trees is at least two levels deeper
than the number of brackets that are open there. -/
theorem exists_lt_depth_of_opensAt {input : String} {scopes : List Scope} {before : List Char}
    {level : Nat} (h : Scope.parse input = .ok scopes) (hopen : OpensAt input.toList before)
    (hlevel : openBrackets before = level) : ∃ s ∈ scopes, level + 1 < s.depth := by
  obtain ⟨ds, hexpr, -, rfl⟩ := parse_eq_ok_iff.1 h
  obtain ⟨p, hp, hlength⟩ := hexpr.exists_chain hopen
  have hne : p ≠ [] := by
    rintro rfl
    simp at hlength
    omega
  obtain ⟨s, hs, hp⟩ := exists_chain_singleton ((chain_map_collapse ds p).2 hp) hne
  refine ⟨s, hs, ?_⟩
  by_contra hnot
  have hle := depth_le_iff.1 (Nat.le_of_not_lt hnot) p hp
  omega

/-- A reader with a bound accepts an expression exactly if the reader without one does and none of
the trees has more than one level more than the bound, and the trees are the same. Where an accepted
expression has a deeper tree, the bounded reader finds it nested too deep, at the first bracket that
opens while as many are open as the bound allows. Every other error of the bounded reader is the
error of the unbounded one. -/
theorem parse_bounded_iff (limit : Nat) (input : String) :
    (∀ scopes, Parser.parse ⟨some limit⟩ input = .ok scopes ↔
      Scope.parse input = .ok scopes ∧ ∀ s ∈ scopes, s.depth ≤ limit + 1) ∧
    (∀ scopes, Scope.parse input = .ok scopes → (∃ s ∈ scopes, limit + 1 < s.depth) →
      ∃ before, FirstOpening input.toList limit before ∧
        Parser.parse ⟨some limit⟩ input =
          .error (.parse .tooDeep (String.ofList before).utf8ByteSize input)) ∧
    ∀ e, Parser.parse ⟨some limit⟩ input = .error e →
      (∀ place text, e ≠ .parse .tooDeep place text) → Scope.parse input = .error e := by
  refine ⟨fun scopes => ⟨fun h => ⟨parse_unbounded_of_ok h, depth_le_of_parse h⟩, ?_⟩, ?_, ?_⟩
  · rintro ⟨h, hdepth⟩
    rcases parse_eq_or_tooDeep ⟨some limit⟩ input with hsame | ⟨place, herror⟩
    · rw [hsame, h]
    · obtain ⟨before, hfirst, -⟩ := firstOpening_of_parse herror
      obtain ⟨s, hs, hlt⟩ := exists_lt_depth_of_opensAt h hfirst.opens hfirst.open_eq
      exact absurd (hdepth s hs) (Nat.not_le.2 hlt)
  · rintro scopes h ⟨s, hs, hlt⟩
    rcases parse_eq_or_tooDeep ⟨some limit⟩ input with hsame | ⟨place, herror⟩
    · exact absurd (depth_le_of_parse (hsame.trans h) s hs) (Nat.not_le.2 hlt)
    · obtain ⟨before, hfirst, rfl⟩ := firstOpening_of_parse herror
      exact ⟨before, hfirst, herror⟩
  · intro e he hother
    rcases parse_eq_or_tooDeep ⟨some limit⟩ input with hsame | ⟨place, herror⟩
    · rw [← hsame, he]
    · rw [he] at herror
      cases herror
      exact absurd rfl (hother place input)

def twiceNested : Scope :=
  Scope.mk "a" false [Scope.mk "b" false [leaf "c" false], Scope.mk "d" false [leaf "e" false]]

/-- With one bracket allowed, the second tree is too deep, where its second bracket opens; the first
tree is as deep as the bound allows. A bracket that closes nothing is found by both readers. -/
theorem parse_bounded_of_second_tree :
    Scope.parse "é[b] a[b[c] d[e]]" =
      .ok [Scope.mk "é" false [leaf "b" false], twiceNested] ∧
    (∃ before, FirstOpening "é[b] a[b[c] d[e]]".toList 1 before ∧
      Parser.parse ⟨some 1⟩ "é[b] a[b[c] d[e]]" =
        .error (.parse .tooDeep (String.ofList before).utf8ByteSize "é[b] a[b[c] d[e]]")) ∧
    Parser.parse ⟨some 1⟩ "a[b]]" = .error (.parse .unopenedBracket 4 "a[b]]") ∧
    Scope.parse "a[b]]" = .error (.parse .unopenedBracket 4 "a[b]]") := by
  have hread : Scope.parse "é[b] a[b[c] d[e]]" =
      .ok [Scope.mk "é" false [leaf "b" false], twiceNested] := by cbv
  have hdepth : 1 + 1 < twiceNested.depth := by cbv
  have hrefused : Parser.parse ⟨some 1⟩ "a[b]]" =
      .error (.parse .unopenedBracket 4 "a[b]]") := by cbv
  refine ⟨hread, ?_, hrefused, ?_⟩
  · exact (parse_bounded_iff 1 _).2.1 _ hread ⟨_, by simp, hdepth⟩
  · exact (parse_bounded_iff 1 _).2.2 _ hrefused fun place text h => by cases h

end ScopeGrant.Parser
