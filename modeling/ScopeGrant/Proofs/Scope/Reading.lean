import ScopeGrant.Proofs.Except
import ScopeGrant.Proofs.Scope.Sibling
import ScopeGrant.Proofs.Scope.Token
import ScopeGrant.Scope.Parser

/-!
# What has been read is written by the grammar

While an expression is read, the text so far is a piece of a derivation: each open pair of brackets
stands behind a term head in the row around it, and the row inside it has come to a point that the
last token tells. `Reads` says so, together with what the state knows about values: the scopes
collected in a row are the written trees with their siblings merged, no chain of them returns to an
owner, and the owners are those of the open brackets. Each token preserves it, hence so does the
whole run, and an expression that is accepted has a derivation without cycles.
-/

namespace ScopeGrant.Parser

open Scope Token

/-! ## Rows that are not finished -/

/-- The text is a row that ends with a term. -/
inductive Full : List Scope → List Char → Prop where
  | mk {ds : List Scope} {before body : List Char} (hbefore : IsGap before) (h : Terms ds body) :
      Full ds (before ++ body)

/-- The text is a row that can go on with a term. -/
inductive Lead : List Scope → List Char → Prop where
  | blank {text : List Char} (h : IsGap text) : Lead [] text
  | gap {ds : List Scope} {text gap : List Char} (h : Full ds text) (hgap : IsGap gap)
      (hne : gap ≠ []) : Lead ds (text ++ gap)

theorem Lead.term {ds : List Scope} {text term : List Char} {t : Scope} (h : Lead ds text)
    (ht : Terms [t] term) : Full (ds ++ [t]) (text ++ term) := by
  cases h with
  | blank hgap => exact ⟨hgap, ht⟩
  | gap h hgap hne =>
    cases h with
    | mk hbefore h =>
      have hfull : Full _ _ := ⟨hbefore, h.snoc hgap hne ht⟩
      simpa only [List.append_assoc] using hfull

theorem Lead.space {ds : List Scope} {text gap : List Char} (h : Lead ds text) (hgap : IsGap gap) :
    Lead ds (text ++ gap) := by
  cases h with
  | blank h => exact .blank (h.append hgap)
  | gap h hgap' hne =>
    rw [List.append_assoc]
    exact .gap h (hgap'.append hgap) (by simp [hne])

theorem Full.expression {ds : List Scope} {text : List Char} (h : Full ds text) :
    Expression ds text := by
  cases h with
  | mk hbefore h => simpa using Expression.row hbefore h isGap_nil

theorem Lead.expression {ds : List Scope} {text : List Char} (h : Lead ds text) :
    Expression ds text := by
  cases h with
  | blank h => exact .blank h
  | gap h hgap _ =>
    cases h with
    | mk hbefore h => exact .row hbefore h hgap

/-- How far a row has come, judged by what stands before the next token. -/
inductive RowAt : Before → List Scope → List Char → Prop where
  | start : RowAt .start [] []
  | opening : RowAt .opening [] []
  | space {ds : List Scope} {text : List Char} (h : Lead ds text) : RowAt .space ds text
  | optional {ds : List Scope} {text : List Char} (h : Lead ds text) :
      RowAt .optional ds (text ++ ['*'])
  | word {ds : List Scope} {text : List Char} {v : String} {o : Bool} (h : Lead ds text)
      (hv : IsValue v) : RowAt .word (ds ++ [leaf v o]) (text ++ heading v o)
  | closing {ds : List Scope} {text : List Char} (h : Full ds text) : RowAt .closing ds text

/-- A row that has not just had a star is an expression. -/
theorem RowAt.expression {before : Before} {ds : List Scope} {text : List Char}
    (h : RowAt before ds text) (hne : before ≠ .optional) : Expression ds text := by
  cases h with
  | start => exact .blank isGap_nil
  | opening => exact .blank isGap_nil
  | space h => exact h.expression
  | optional h => exact absurd rfl hne
  | word h hv => exact (h.term (.plain hv)).expression
  | closing h => exact h.expression

/-- The places where a term may begin. -/
def Before.Leads (before : Before) : Prop :=
  before = .start ∨ before = .space ∨ before = .opening

theorem RowAt.lead {before : Before} {ds : List Scope} {text : List Char}
    (h : RowAt before ds text) (hbefore : before.Leads) : Lead ds text := by
  cases h with
  | start => exact .blank isGap_nil
  | opening => exact .blank isGap_nil
  | space h => exact h
  | optional | word | closing => simp [Before.Leads] at hbefore

/-! ## Open brackets -/

/-- The text before the row inside the innermost brackets: for each pair of brackets the row around
it, up to and including the opening one, where `top` holds the scopes of the outermost row. -/
inductive Opened (top : List Scope) : List Block → List Char → Prop where
  | none : Opened top [] []
  | block {blocks : List Block} {outer text : List Char} {ds scopes : List Scope} {v : String}
      {o : Bool} {openedAt : Nat} (h : Opened top blocks outer) (hlead : Lead ds text)
      (hv : IsValue v) (hscopes : ds.map collapse = ({ top, blocks } : State).current.reverse)
      (hclear : Clear ({ blocks } : State).ownerChain ds) :
      Opened top ({ owner := leaf v o, openedAt, scopes } :: blocks)
        (outer ++ (text ++ heading v o ++ ['[']))

namespace State

@[simp] theorem current_setCurrent (st : State) (scopes : List Scope) :
    (st.setCurrent scopes).current = scopes := by
  cases hb : st.blocks <;> simp [setCurrent, current, hb]

@[simp] theorem ownerChain_setCurrent (st : State) (scopes : List Scope) :
    (st.setCurrent scopes).ownerChain = st.ownerChain := by
  cases hb : st.blocks <;> simp [setCurrent, ownerChain, hb]

@[simp] theorem owners_setCurrent (st : State) (scopes : List Scope) :
    (st.setCurrent scopes).owners = st.owners := by
  cases hb : st.blocks <;> simp [setCurrent, hb]

theorem opened_setCurrent {st : State} {outer : List Char} (h : Opened st.top st.blocks outer)
    (scopes : List Scope) :
    Opened (st.setCurrent scopes).top (st.setCurrent scopes).blocks outer := by
  cases hb : st.blocks with
  | nil =>
    rw [hb] at h
    cases h with
    | none =>
      rw [setCurrent, hb]
      exact .none
  | cons block blocks =>
    rw [hb] at h
    cases h with
    | block h hlead hv hscopes hclear =>
      rw [setCurrent, hb]
      exact .block h hlead hv hscopes hclear

end State

namespace State

/-- The state with one more pair of brackets open. -/
def withBlock (st : State) (owner : Scope) (position : Nat) : State :=
  { st with
    blocks := { owner, openedAt := position } :: st.blocks
    owners := st.owners.insert owner.value }

@[simp] theorem ownerChain_withBlock (st : State) (owner : Scope) (position : Nat) :
    (st.withBlock owner position).ownerChain = st.ownerChain ++ [owner.value] := by
  simp [withBlock, ownerChain]

theorem star_eq_ok {input : String} {st next : State} {position : Nat}
    (h : st.star input position = .ok next) :
    next = { st with optionalAt := position } := by
  unfold star at h
  split at h <;> cases h <;> rfl

theorem word_eq_ok {input : String} {st next : State} {value : String} {position : Nat}
    (h : st.word input value position = .ok next) :
    next = st.push (leaf value (st.before == .optional)) := by
  unfold word at h
  split at h
  · cases h
  split at h
  · cases h
  · cases h
    rfl

theorem space_eq_ok {input : String} {st next : State} (h : st.space input = .ok next) :
    next = { st with beforeSpace := st.before } := by
  unfold space at h
  split at h <;> cases h
  rfl

theorem opening_eq_ok {parser : Parser} {input : String} {st next : State} {position : Nat}
    (h : st.opening parser input position = .ok next) :
    st.before = .word ∧ ∃ owner others, st.current = owner :: others ∧
      next = (st.setCurrent others).withBlock owner position := by
  unfold opening at h
  split at h
  · cases h
  rename_i hfault
  split at h
  · cases h
  split at h
  · cases h
  rename_i owner others hcurrent
  cases h
  refine ⟨?_, owner, others, hcurrent, rfl⟩
  unfold openingFault? at hfault
  split at hfault
  · assumption
  · cases hfault
  · split at hfault <;> cases hfault
  all_goals cases hfault

/-- The state with the innermost brackets closed and their owner left out. -/
def withoutBlock (st : State) (block : Block) (blocks : List Block) : State :=
  { st with blocks, owners := st.owners.erase block.owner.value }

theorem ownerChain_withoutBlock {st : State} {block : Block} {blocks : List Block}
    (h : st.blocks = block :: blocks) :
    st.ownerChain = (st.withoutBlock block blocks).ownerChain ++ [block.owner.value] := by
  simp [ownerChain, withoutBlock, h]

theorem closing_eq_ok {input : String} {st next : State} {position : Nat}
    (h : st.closing input position = .ok next) :
    st.before ≠ .optional ∧ ∃ block blocks, st.blocks = block :: blocks ∧ block.scopes ≠ [] ∧
      next = (st.withoutBlock block blocks).push
        (block.owner.setDependencies (normalize block.scopes.reverse)) := by
  unfold closing at h
  split at h
  · cases h
  rename_i hbefore
  split at h
  · cases h
  rename_i block blocks hblocks
  split at h
  · cases h
  rename_i hne
  cases h
  refine ⟨hbefore, block, blocks, hblocks, by simpa using hne, ?_⟩
  rw [withoutBlock, value_setDependencies]

end State

/-! ## Owners -/

namespace State

/-- The set of owners holds the values that own the open brackets. -/
def Owned (st : State) : Prop :=
  ∀ v, v ∈ st.owners ↔ v ∈ st.ownerChain

namespace Owned

variable {st : State}

theorem contains_iff (h : st.Owned) {v : String} :
    st.owners.contains v = true ↔ v ∈ st.ownerChain := by
  rw [← Std.ExtTreeSet.mem_iff_contains, h v]

/-- A word that is taken in is none of the owners. -/
theorem not_mem_of_word {input v : String} {position : Nat} {next : State} (h : st.Owned)
    (hs : st.word input v position = .ok next) : v ∉ st.ownerChain := by
  intro hmem
  unfold State.word at hs
  split at hs
  · cases hs
  · rw [if_pos (h.contains_iff.2 hmem)] at hs
    cases hs

theorem setCurrent (h : st.Owned) (scopes : List Scope) : (st.setCurrent scopes).Owned := by
  intro v
  rw [owners_setCurrent, ownerChain_setCurrent]
  exact h v

theorem withBlock (h : st.Owned) (owner : Scope) (position : Nat) :
    (st.withBlock owner position).Owned := by
  intro v
  rw [ownerChain_withBlock, State.withBlock, Std.ExtTreeSet.mem_insert, h v, List.mem_append,
    List.mem_singleton, or_comm, Std.compare_eq_iff_eq, eq_comm]

/-- Only the innermost brackets may be owned by the value that is taken out with them. -/
theorem withoutBlock {block : Block} {blocks : List Block} (h : st.Owned)
    (hblocks : st.blocks = block :: blocks)
    (hfresh : block.owner.value ∉ (st.withoutBlock block blocks).ownerChain) :
    (st.withoutBlock block blocks).Owned := by
  intro v
  have hmem := h v
  rw [ownerChain_withoutBlock hblocks, List.mem_append, List.mem_singleton] at hmem
  rw [State.withoutBlock, Std.ExtTreeSet.mem_erase, hmem, ne_eq, Std.compare_eq_iff_eq]
  constructor
  · rintro ⟨hne, hv | hv⟩
    · exact hv
    · exact absurd hv.symm hne
  · intro hv
    exact ⟨fun heq => hfresh (by rwa [heq]), Or.inl hv⟩

end Owned

end State

theorem Before.ofKind_eq_word {kind : TokenKind} (h : Before.ofKind kind = .word) :
    kind = .word := by
  cases kind <;> first | rfl | cases h

/-- Take in one token, but for what it leaves standing before the next one. -/
def State.take (parser : Parser) (input : String) (st : State) (token : Token) :
    Except ScopeError State :=
  match token.kind with
  | .optional => st.star input token.position
  | .word => st.word input token.text token.position
  | .opening => st.opening parser input token.position
  | .closing => st.closing input token.position
  | .space => st.space input

theorem State.step_eq (parser : Parser) (input : String) (st : State) (token : Token) :
    st.step parser input token =
      st.take parser input token >>= fun next =>
        .ok { next with before := .ofKind token.kind } := by
  unfold State.step State.take
  cases token.kind <;> rfl

theorem State.ne_tooDeep_of_openingFault? (st : State) {kind : ParseErrorKind}
    {position place : Nat} (h : st.openingFault? position = some (kind, place)) :
    kind ≠ .tooDeep := by
  rintro rfl
  unfold openingFault? at h
  split at h
  · cases h
  · cases h
  · split at h <;> cases h
  all_goals cases h

/-- What a token can be refused for: a fault of the grammar, too many open brackets, or a word that is
one of the owners that the reader knows. -/
theorem State.step_eq_error {parser : Parser} {input : String} {st : State} {token : Token}
    {e : ScopeError} (h : st.step parser input token = .error e) :
    (∃ kind place, kind ≠ .tooDeep ∧ e = .parse kind place input) ∨
    (token.kind = .opening ∧ st.full parser = true ∧
      e = .parse .tooDeep token.position input) ∨
    token.kind = .word ∧ st.owners.contains token.text = true ∧
      e = .cycle token.text (st.ownerChain ++ [token.text]) := by
  have htake : st.take parser input token = .error e := by
    rw [step_eq] at h
    cases htaken : st.take parser input token with
    | ok taken =>
      rw [htaken] at h
      cases h
    | error e' => rwa [htaken] at h
  unfold take at htake
  cases hk : token.kind with
  | optional =>
    simp only [hk, star] at htake
    split at htake <;> cases htake
    all_goals exact Or.inl ⟨_, _, by simp, rfl⟩
  | word =>
    simp only [hk, word] at htake
    split at htake
    · cases htake
      exact Or.inl ⟨_, _, by simp, rfl⟩
    split at htake
    · rename_i howner
      cases htake
      exact Or.inr (Or.inr ⟨rfl, howner, rfl⟩)
    · cases htake
  | opening =>
    simp only [hk, opening] at htake
    split at htake
    · rename_i kind place hfault
      cases htake
      exact Or.inl ⟨kind, place, st.ne_tooDeep_of_openingFault? hfault, rfl⟩
    split at htake
    · rename_i hfull
      cases htake
      exact Or.inr (Or.inl ⟨rfl, hfull, rfl⟩)
    split at htake
    · cases htake
      exact Or.inl ⟨_, _, by simp, rfl⟩
    · cases htake
  | closing =>
    simp only [hk, closing] at htake
    split at htake
    · cases htake
      exact Or.inl ⟨_, _, by simp, rfl⟩
    split at htake
    · cases htake
      exact Or.inl ⟨_, _, by simp, rfl⟩
    · split at htake <;> cases htake
      exact Or.inl ⟨_, _, by simp, rfl⟩
  | space =>
    simp only [hk, space] at htake
    split at htake <;> cases htake
    exact Or.inl ⟨_, _, by simp, rfl⟩

/-- Take in the tokens of a text whose first character stands at `position`. -/
def State.run (parser : Parser) (input : String) (position : Nat) (text : List Char) (st : State) :
    Except ScopeError State :=
  (tokensFrom position text).foldlM (State.step parser input) st

theorem State.run_nil (parser : Parser) (input : String) (position : Nat) (st : State) :
    st.run parser input position [] = .ok st := by
  rw [State.run, tokensFrom]
  rfl

theorem State.run_of_tokensFrom {parser : Parser} {input : String} {position position' : Nat}
    {text rest : List Char} {token : Token}
    (h : tokensFrom position text = token :: tokensFrom position' rest) (st : State) :
    st.run parser input position text =
      st.step parser input token >>= State.run parser input position' rest := by
  rw [State.run, h, List.foldlM_cons]
  rfl

theorem parse_eq (parser : Parser) (input : String) :
    parser.parse input =
      State.run parser input 0 input.toList {} >>= State.finish input := by
  rw [parse, scan_eq]
  rfl

/-! ## The invariant -/

/-- What has been read when `before` stands before the next token: `outer` before the row inside the
innermost brackets, then the text of this row, which writes `ds`. -/
structure Reads (before : Before) (st : State) (outer : List Char) (ds : List Scope)
    (text : List Char) : Prop where
  opened : Opened st.top st.blocks outer
  row : RowAt before ds text
  scopes : ds.map collapse = st.current.reverse
  clear : Clear st.ownerChain ds
  owned : st.Owned

namespace Reads

variable {before : Before} {st next : State} {outer text : List Char} {ds : List Scope}
  {input : String} {position : Nat}

theorem init : Reads .start {} [] [] [] :=
  ⟨.none, .start, rfl, clear_nil.2 List.nodup_nil, fun v => by simp [State.ownerChain]⟩

/-- The invariant does not look at what the state itself holds to stand before the next token. -/
theorem setBefore (h : Reads before st outer ds text) (b : Before) :
    Reads before { st with before := b } outer ds text :=
  ⟨h.opened, h.row, h.scopes, h.clear, h.owned⟩

theorem star (h : Reads st.before st outer ds text) (hs : st.star input position = .ok next) :
    Reads .optional next outer ds (text ++ ['*']) := by
  have hlead : st.before.Leads →
      Reads .optional { st with optionalAt := position } outer ds (text ++ ['*']) := fun hb =>
    ⟨h.opened, .optional (h.row.lead hb), h.scopes, h.clear, h.owned⟩
  unfold State.star at hs
  split at hs <;> cases hs
  · rename_i hb
    exact hlead (Or.inl hb)
  · rename_i hb
    exact hlead (Or.inr (Or.inl hb))
  · rename_i hb
    exact hlead (Or.inr (Or.inr hb))

theorem space {gap : List Char} (h : Reads st.before st outer ds text) (hgap : IsGap gap)
    (hne : gap ≠ []) (hs : st.space input = .ok next) :
    Reads .space next outer ds (text ++ gap) := by
  unfold State.space at hs
  split at hs
  · cases hs
  rename_i hb
  cases hs
  refine ⟨h.opened, .space ?_, h.scopes, h.clear, h.owned⟩
  have hrow := h.row
  generalize st.before = b at hrow hb
  cases hrow with
  | start => exact .blank hgap
  | opening => exact .blank hgap
  | space hlead => exact hlead.space hgap
  | optional hlead => exact absurd rfl hb
  | word hlead hv => exact .gap (hlead.term (.plain hv)) hgap hne
  | closing hfull => exact .gap hfull hgap hne

/-- Adding a scope to the innermost row. -/
theorem push {s : Scope} {before' : Before} {text' : List Char} (h : Reads before st outer ds text)
    (hrow : RowAt before' (ds ++ [s]) text') (hclear : Clear st.ownerChain [s]) :
    Reads before' (st.push s.collapse) outer (ds ++ [s]) text' := by
  refine ⟨State.opened_setCurrent h.opened _, hrow, ?_, ?_, h.owned.setCurrent _⟩
  · rw [State.push, State.current_setCurrent, List.reverse_cons, ← h.scopes, List.map_append]
    rfl
  · rw [State.push, State.ownerChain_setCurrent, clear_append]
    exact ⟨h.clear, hclear⟩

theorem word {v : String} (h : Reads st.before st outer ds text) (hne : st.before ≠ .word)
    (hv : IsValue v) (hs : st.word input v position = .ok next) :
    ∃ ds', Reads .word next outer ds' (text ++ v.toList) := by
  unfold State.word at hs
  split at hs
  · cases hs
  rename_i hclosing
  split at hs
  · cases hs
  rename_i howner
  cases hs
  have hclear : ∀ o, Clear st.ownerChain [leaf v o] := by
    intro o
    rw [clear_singleton]
    refine clear_nil.2 ?_
    rw [← List.concat_eq_append]
    exact h.clear.nodup.concat fun hmem => howner (h.owned.contains_iff.2 hmem)
  have hpush : ∀ o, RowAt .word (ds ++ [leaf v o]) (text ++ v.toList) →
      Reads .word (st.push (leaf v o)) outer (ds ++ [leaf v o]) (text ++ v.toList) := by
    intro o hrow
    have := h.push hrow (hclear o)
    rwa [collapse_leaf] at this
  have hplain : st.before.Leads → RowAt .word (ds ++ [leaf v false]) (text ++ v.toList) := fun hb =>
    by simpa [heading] using RowAt.word (o := false) (h.row.lead hb) hv
  refine ⟨_, hpush _ ?_⟩
  cases hb : st.before with
  | start => exact hplain (Or.inl hb)
  | space => exact hplain (Or.inr (Or.inl hb))
  | opening => exact hplain (Or.inr (Or.inr hb))
  | optional =>
    have hrow := h.row
    rw [hb] at hrow
    cases hrow with
    | optional hlead => simpa [heading] using RowAt.word (o := true) hlead hv
  | word => exact absurd hb hne
  | closing => exact absurd hb hclosing

/-- An opening bracket takes the last scope out of the row; the value that it stands behind has just
been read, so this scope is a leaf. -/
theorem opening {parser : Parser} (h : Reads st.before st outer ds text)
    (hs : st.opening parser input position = .ok next) :
    Reads .opening next (outer ++ (text ++ ['['])) [] [] := by
  obtain ⟨hb, owner, others, hcurrent, rfl⟩ := State.opening_eq_ok hs
  obtain ⟨hopened, hrow, hscopes, hclear, howned⟩ := h
  rw [hb] at hrow
  cases hrow with
  | @word ds text v o hlead hv =>
    rw [List.map_append, List.map_singleton, collapse_leaf, hcurrent, List.reverse_cons] at hscopes
    obtain ⟨hothers, howner⟩ := List.append_inj' hscopes rfl
    obtain rfl : leaf v o = owner := List.singleton_inj.1 howner
    rw [clear_append] at hclear
    refine ⟨?_, .opening, rfl, ?_, (howned.setCurrent others).withBlock _ position⟩
    · refine .block (State.opened_setCurrent hopened others) hlead hv ?_ ?_
      · rw [hothers]
        exact congrArg List.reverse (st.current_setCurrent others).symm
      · exact (st.ownerChain_setCurrent others).symm ▸ hclear.1
    · rw [clear_nil, State.ownerChain_withBlock, State.ownerChain_setCurrent]
      exact (clear_singleton.1 hclear.2).nodup

/-- A closing bracket makes a term of the row inside the brackets and of the head before them. -/
theorem closing (h : Reads st.before st outer ds text)
    (hs : st.closing input position = .ok next) :
    ∃ outer' ds' text', outer' ++ text' = outer ++ (text ++ [']']) ∧
      Reads .closing next outer' ds' text' := by
  obtain ⟨hb, block, blocks, hblocks, hne, rfl⟩ := State.closing_eq_ok hs
  obtain ⟨hopened, hrow, hscopes, hclear, howned⟩ := h
  have hcurrent : st.current = block.scopes := by rw [State.current, hblocks]
  rw [State.ownerChain_withoutBlock hblocks] at hclear
  rw [hcurrent] at hscopes
  have hfresh : block.owner.value ∉ (st.withoutBlock block blocks).ownerChain := fun hmem =>
    (List.nodup_append.1 hclear.nodup).2.2 _ hmem _ (List.mem_singleton_self _) rfl
  have houtside := howned.withoutBlock hblocks hfresh
  rw [hblocks] at hopened
  cases hopened with
  | @block _ outer' text' ds' scopes v o openedAt hopened hlead hv hscopes' hclear' =>
    have hds : ds ≠ [] := by
      rintro rfl
      exact hne (List.reverse_eq_nil_iff.1 hscopes.symm)
    have hterm := (hrow.expression hb).bracketed hds hv o
    -- without the brackets, the row around them is back where the head of the term begins
    have houter : Reads .space (st.withoutBlock ⟨leaf v o, openedAt, scopes⟩ blocks) outer' ds'
        text' := ⟨hopened, .space hlead, hscopes', hclear', houtside⟩
    have hread := houter.push (.closing (hlead.term hterm)) (clear_singleton.2 hclear)
    rw [← setDependencies_normalize, hscopes] at hread
    exact ⟨outer', _, _, by simp, hread⟩

/-- Every token that is taken in preserves the invariant and adds its characters to what has been
read. Two words never follow one another directly. -/
theorem step {parser : Parser} {token : Token} (h : Reads st.before st outer ds text)
    (hfits : token.Fits) (hword : st.before = .word → token.kind ≠ .word)
    (hs : st.step parser input token = .ok next) :
    ∃ outer' ds' text', outer' ++ text' = outer ++ text ++ token.text.toList ∧
      Reads next.before next outer' ds' text' := by
  rw [State.step_eq] at hs
  obtain ⟨taken, htaken, hs⟩ := bind_eq_ok_iff.1 hs
  cases hs
  unfold State.take at htaken
  unfold Token.Fits at hfits
  cases hk : token.kind with
  | optional =>
    rw [hk] at htaken hfits
    refine ⟨outer, ds, text ++ ['*'], by simp [hfits], ?_⟩
    exact (h.star htaken).setBefore _
  | word =>
    rw [hk] at htaken hfits hword
    obtain ⟨ds', hread⟩ := h.word (fun hb => hword hb rfl) hfits htaken
    exact ⟨outer, ds', _, by simp, hread.setBefore _⟩
  | opening =>
    rw [hk] at htaken hfits
    exact ⟨_, _, _, by simp [hfits], (h.opening htaken).setBefore _⟩
  | closing =>
    rw [hk] at htaken hfits
    obtain ⟨outer', ds', text', htext, hread⟩ := h.closing htaken
    exact ⟨outer', ds', text', by simp [htext, hfits], hread.setBefore _⟩
  | space =>
    rw [hk] at htaken hfits
    exact ⟨outer, ds, _, by simp, (h.space hfits.2 hfits.1 htaken).setBefore _⟩

/-- So does every run over a text, as long as the text does not go on with a word that has already
been read up to its middle. -/
theorem run {parser : Parser} {rest : List Char} {final : State}
    (h : Reads st.before st outer ds text)
    (hword : st.before = .word → ∀ c ∈ rest.head?, isReserved c = true)
    (hs : st.run parser input position rest = .ok final) :
    ∃ outer' ds' text', outer' ++ text' = outer ++ text ++ rest ∧
      Reads final.before final outer' ds' text' := by
  induction hn : rest.length using Nat.strongRecOn generalizing rest st outer text ds position with
  | ind n ih =>
    subst hn
    cases rest with
    | nil =>
      rw [State.run_nil] at hs
      cases hs
      exact ⟨outer, ds, text, by simp, h⟩
    | cons c rest =>
      rw [State.run_of_tokensFrom (tokensFrom.eq_2 position c rest)] at hs
      obtain ⟨next, hstep, hs⟩ := bind_eq_ok_iff.1 hs
      have hnot : st.before = .word → (first position c rest).kind ≠ .word := by
        intro hb hk
        have hres := hword hb c rfl
        rw [not_isReserved_of_ofChar hk] at hres
        cases hres
      obtain ⟨outer', ds', text', htext, hread⟩ :=
        h.step (first_fits position c rest) hnot hstep
      have hnext : next.before = .ofKind (TokenKind.ofChar c) := by
        rw [State.step_eq] at hstep
        obtain ⟨taken, -, htaken⟩ := bind_eq_ok_iff.1 hstep
        cases htaken
        rfl
      have hstop : next.before = .word → ∀ x ∈ (afterFirst c rest).head?, isReserved x = true := by
        intro hb x hx
        have hend := head_afterFirst c rest x hx
        rw [hnext] at hb
        rw [Before.ofKind_eq_word hb] at hend
        simpa [TokenKind.goesOn] using hend
      obtain ⟨outer'', ds'', text'', htext', hread'⟩ := ih _
        (Nat.lt_succ_of_le (length_afterFirst_le c rest)) hread hstop hs rfl
      refine ⟨outer'', ds'', text'', ?_, hread'⟩
      rw [htext', htext, List.append_assoc, List.append_assoc, toList_first_append,
        List.append_assoc]

end Reads

/-- An accepted expression is written by the grammar, without cycles; the result are the written
trees with their repeated siblings merged. -/
theorem parse_sound {parser : Parser} {input : String} {scopes : List Scope}
    (h : parser.parse input = .ok scopes) :
    ∃ ds, Expression ds input.toList ∧ Clear [] ds ∧ scopes = ds.map collapse := by
  rw [parse_eq] at h
  obtain ⟨final, hrun, hfinish⟩ := bind_eq_ok_iff.1 h
  obtain ⟨outer, ds, text, htext, hread⟩ := Reads.init.run (by simp) hrun
  unfold State.finish at hfinish
  split at hfinish
  · cases hfinish
  rename_i hb
  split at hfinish
  · cases hfinish
  rename_i hblocks
  cases hfinish
  obtain ⟨hopened, hrow, hscopes, hclear, -⟩ := hread
  rw [hblocks] at hopened
  cases hopened
  rw [State.ownerChain, hblocks] at hclear
  rw [State.current, hblocks] at hscopes
  simp only [List.nil_append] at htext
  exact ⟨ds, htext ▸ hrow.expression hb, hclear, hscopes.symm⟩

end ScopeGrant.Parser
