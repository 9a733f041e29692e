import ScopeGrant.Proofs.Scope.Depth
import ScopeGrant.Proofs.Scope.Reading

/-!
# Reading within a bound

A reader with a bound looks at it in one place only, where a bracket opens. Until there are too many
brackets open at once it does what the reader without a bound does, and then it fails
(`parse_eq_or_tooDeep`). So what it reads is what is read without the bound, and it is not nested
deeper than the bound allows: a row with more brackets around it has less room for chains, and
closing a bracket moves a tree to a row with room for one level more (`Room`).
-/

namespace ScopeGrant.Parser

open Scope Token

namespace State

variable {parser : Parser} {input : String} {st next : State}

/-! ## The same steps -/

theorem full_unbounded (st : State) : st.full {} = false :=
  rfl

theorem opening_eq_or (parser : Parser) (input : String) (st : State) (position : Nat) :
    st.opening parser input position = st.opening {} input position ∨
      st.opening parser input position = .error (.parse .tooDeep position input) := by
  unfold opening
  cases st.openingFault? position with
  | some fault => exact Or.inl rfl
  | none =>
    by_cases hfull : st.full parser = true
    · exact Or.inr (if_pos hfull)
    · left
      simp only [hfull, full_unbounded, Bool.false_eq_true, if_false]

/-- A bracket opens only if fewer are open than the bound allows. -/
theorem length_blocks_lt_of_opening {limit position : Nat}
    (h : st.opening ⟨some limit⟩ input position = .ok next) : st.blocks.length < limit := by
  by_contra hnot
  have hfull : st.full ⟨some limit⟩ = true := decide_eq_true (Nat.not_lt.1 hnot)
  unfold opening at h
  split at h
  · cases h
  · rw [if_pos hfull] at h
    cases h

theorem step_eq_or (parser : Parser) (input : String) (st : State) (token : Token) :
    st.step parser input token = st.step {} input token ∨
      ∃ e, (∃ position, e = .parse .tooDeep position input) ∧
        st.step parser input token = .error e := by
  rw [step_eq, step_eq]
  unfold take
  cases token.kind with
  | opening =>
    rcases opening_eq_or parser input st token.position with hsame | herror
    · exact Or.inl (by rw [hsame])
    · exact Or.inr ⟨_, ⟨token.position, rfl⟩, by rw [herror]; rfl⟩
  | optional | word | closing | space => exact Or.inl rfl

end State

/-- A bounded reader answers as the unbounded one does, or finds that an expression is nested too
deep. -/
theorem parse_eq_or_tooDeep (parser : Parser) (input : String) :
    parser.parse input = Scope.parse input ∨
      ∃ position, parser.parse input = .error (.parse .tooDeep position input) := by
  rw [Scope.parse, parse, parse]
  rcases foldlM_eq_or_error (State.step_eq_or parser input) (Token.scan input) {} with
    hsame | ⟨e, ⟨position, rfl⟩, herror⟩
  · exact Or.inl (by rw [hsame])
  · exact Or.inr ⟨position, by rw [herror]; rfl⟩

theorem parse_unbounded_of_ok {parser : Parser} {input : String} {scopes : List Scope}
    (h : parser.parse input = .ok scopes) : Scope.parse input = .ok scopes := by
  rcases parse_eq_or_tooDeep parser input with hsame | ⟨position, herror⟩
  · rw [← hsame, h]
  · rw [h] at herror
    cases herror

theorem parse_of_maxDepth_eq_none {parser : Parser} (h : parser.maxDepth = none) (input : String) :
    parser.parse input = Scope.parse input := by
  obtain ⟨maxDepth⟩ := parser
  cases h
  rfl

/-! ## How deep they lead -/

/-- The chains of the innermost row have room for `room` levels, those of the row around it for one
more, and so on up to the top level, which has room for one level more than the bound. -/
inductive Room (limit : Nat) (top : List Scope) : Nat → List Block → Prop where
  | top (h : Shallow (limit + 1) top) : Room limit top (limit + 1) []
  | block {room : Nat} {block : Block} {blocks : List Block} (h : Shallow room block.scopes)
      (houter : Room limit top (room + 1) blocks) : Room limit top room (block :: blocks)

namespace Room

variable {limit room : Nat} {st next : State} {input : String}

theorem room_add_length {top : List Scope} {blocks : List Block} (h : Room limit top room blocks) :
    room + blocks.length = limit + 1 := by
  induction h with
  | top h => rfl
  | block h houter ih =>
    rw [List.length_cons]
    omega

theorem current (h : Room limit st.top room st.blocks) : Shallow room st.current := by
  unfold State.current
  generalize st.blocks = blocks at h
  cases h with
  | top h => exact h
  | block h houter => exact h

theorem setCurrent {scopes : List Scope} (h : Room limit st.top room st.blocks)
    (hscopes : Shallow room scopes) :
    Room limit (st.setCurrent scopes).top room (st.setCurrent scopes).blocks := by
  cases hb : st.blocks with
  | nil =>
    rw [hb] at h
    cases h with
    | top h =>
      rw [State.setCurrent, hb]
      exact .top hscopes
  | cons block blocks =>
    rw [hb] at h
    cases h with
    | block h houter =>
      rw [State.setCurrent, hb]
      exact .block hscopes houter

theorem push {s : Scope} (h : Room limit st.top room st.blocks) (hs : Shallow room [s]) :
    Room limit (st.push s).top room (st.push s).blocks :=
  h.setCurrent (shallow_cons.2 ⟨hs, h.current⟩)

/-- A row inside further brackets has room for a scope, if the bound lets these brackets open. -/
theorem opening {position : Nat} (h : Room limit st.top room st.blocks)
    (hs : st.opening ⟨some limit⟩ input position = .ok next) :
    ∃ inner, 0 < inner ∧ Room limit next.top inner next.blocks := by
  have hlt := State.length_blocks_lt_of_opening hs
  obtain ⟨-, owner, others, hcurrent, rfl⟩ := State.opening_eq_ok hs
  have hlength := h.room_add_length
  obtain ⟨inner, rfl⟩ : ∃ inner, room = inner + 1 := ⟨room - 1, by omega⟩
  have hothers : Shallow (inner + 1) others := by
    have hrow := h.current
    rw [hcurrent] at hrow
    exact (shallow_cons.1 hrow).2
  refine ⟨inner, by omega, ?_⟩
  exact .block (shallow_nil inner) (h.setCurrent hothers)

/-- With a pair of brackets a tree leaves the row inside them, and its dependencies had room
there. -/
theorem closing {position : Nat} (h : Room limit st.top room st.blocks)
    (hs : st.closing input position = .ok next) :
    Room limit next.top (room + 1) next.blocks := by
  obtain ⟨-, block, blocks, hblocks, -, rfl⟩ := State.closing_eq_ok hs
  rw [hblocks] at h
  cases h with
  | block h houter =>
    have houtside : Room limit (st.withoutBlock block blocks).top (room + 1)
        (st.withoutBlock block blocks).blocks := houter
    refine houtside.push ?_
    rw [shallow_succ_singleton, dependencies_setDependencies, shallow_normalize]
    intro p hp
    exact h p (hp.mono (List.reverse_subset.2 (List.Subset.refl _)))

theorem step {token : Token} (h : Room limit st.top room st.blocks) (hroom : 0 < room)
    (hs : st.step ⟨some limit⟩ input token = .ok next) :
    ∃ inner, 0 < inner ∧ Room limit next.top inner next.blocks := by
  rw [State.step_eq] at hs
  obtain ⟨taken, htaken, hs⟩ := bind_eq_ok_iff.1 hs
  cases hs
  unfold State.take at htaken
  show ∃ inner, 0 < inner ∧ Room limit taken.top inner taken.blocks
  cases hk : token.kind with
  | optional =>
    rw [hk] at htaken
    rw [State.star_eq_ok htaken]
    exact ⟨room, hroom, h⟩
  | word =>
    rw [hk] at htaken
    rw [State.word_eq_ok htaken]
    obtain ⟨inner, rfl⟩ : ∃ inner, room = inner + 1 := ⟨room - 1, by omega⟩
    exact ⟨inner + 1, hroom, h.push (shallow_succ_singleton.2 (shallow_nil inner))⟩
  | opening =>
    rw [hk] at htaken
    exact h.opening htaken
  | closing =>
    rw [hk] at htaken
    exact ⟨room + 1, Nat.succ_pos room, h.closing htaken⟩
  | space =>
    rw [hk] at htaken
    rw [State.space_eq_ok htaken]
    exact ⟨room, hroom, h⟩

end Room

/-- What a bounded reader accepts is at most one level deeper than the brackets that it allows. -/
theorem depth_le_of_parse {limit : Nat} {input : String} {scopes : List Scope}
    (h : Parser.parse ⟨some limit⟩ input = .ok scopes) : ∀ s ∈ scopes, s.depth ≤ limit + 1 := by
  rw [parse] at h
  obtain ⟨st, hrun, hfinish⟩ := bind_eq_ok_iff.1 h
  have hroom : ∃ room, 0 < room ∧ Room limit st.top room st.blocks := by
    refine foldlM_invariant
      (P := fun _ st => ∃ room, 0 < room ∧ Room limit st.top room st.blocks) ?_
      ⟨limit + 1, Nat.succ_pos limit, .top (shallow_nil _)⟩ hrun
    rintro _ token before after ⟨room, hpos, hst⟩ hstep
    exact hst.step hpos hstep
  unfold State.finish at hfinish
  split at hfinish
  · cases hfinish
  split at hfinish
  · cases hfinish
  rename_i hblocks
  cases hfinish
  obtain ⟨room, -, hst⟩ := hroom
  rw [hblocks] at hst
  cases hst with
  | top htop =>
    intro s hs
    exact depth_le_iff.2 (htop.of_mem (List.mem_reverse.1 hs))

end ScopeGrant.Parser
