import ScopeGrant.Proofs.Scope.Reading

/-!
# Brackets of a text

How many brackets are open at a place of a text is what stands before it: the opening brackets less
the closing ones. A row of terms closes all that it opens, and where a bracket opens in it, the
scopes that it writes have a chain into this bracket (`Terms.exists_chain`). While an expression is
read, the brackets that are open in its text are those of the state (`length_blocks_step`).
-/

namespace ScopeGrant

namespace Scope

open Text

/-- The number of brackets that a text leaves open; it is negative if it closes more than it
opens. -/
def openBrackets (text : List Char) : Int :=
  (text.count '[' : Int) - text.count ']'

@[simp] theorem openBrackets_nil : openBrackets [] = 0 := rfl

@[simp] theorem openBrackets_append (xs ys : List Char) :
    openBrackets (xs ++ ys) = openBrackets xs + openBrackets ys := by
  simp only [openBrackets, List.count_append]
  omega

@[simp] theorem openBrackets_opening (text : List Char) :
    openBrackets ('[' :: text) = openBrackets text + 1 := by
  simp [openBrackets]
  omega

@[simp] theorem openBrackets_closing : openBrackets [']'] = -1 := by decide

/-- Behind the text `before` a bracket opens. -/
def OpensAt (text before : List Char) : Prop :=
  before ++ ['['] <+: text

theorem OpensAt.mem {text before : List Char} (h : OpensAt text before) : '[' ∈ text :=
  h.subset (by simp)

theorem opensAt_cons_iff {c : Char} {text before : List Char} :
    OpensAt (c :: text) before ↔
      (before = [] ∧ c = '[') ∨ ∃ inner, before = c :: inner ∧ OpensAt text inner := by
  cases before with
  | nil => simp [OpensAt, eq_comm]
  | cons b before => simp [OpensAt]

theorem opensAt_append_iff {xs ys before : List Char} :
    OpensAt (xs ++ ys) before ↔
      OpensAt xs before ∨ ∃ inner, before = xs ++ inner ∧ OpensAt ys inner := by
  induction xs generalizing before with
  | nil => simp [OpensAt]
  | cons x xs ih =>
    rw [List.cons_append, opensAt_cons_iff, opensAt_cons_iff, or_assoc]
    refine or_congr_right ?_
    simp only [ih, and_or_left, exists_or]
    refine or_congr_right ?_
    constructor
    · rintro ⟨_, rfl, inner, rfl, h⟩
      exact ⟨inner, rfl, h⟩
    · rintro ⟨inner, rfl, h⟩
      exact ⟨_, rfl, inner, rfl, h⟩

/-- The text holds no bracket. -/
def Unbracketed (text : List Char) : Prop :=
  '[' ∉ text ∧ ']' ∉ text

theorem Unbracketed.openBrackets_eq {text : List Char} (h : Unbracketed text) :
    openBrackets text = 0 := by
  rw [openBrackets, List.count_eq_zero_of_not_mem h.1, List.count_eq_zero_of_not_mem h.2]
  rfl

/-- A bracket that opens behind a text without brackets opens in what follows it. -/
theorem OpensAt.of_append {xs ys before : List Char} (h : OpensAt (xs ++ ys) before)
    (hxs : Unbracketed xs) :
    ∃ inner, before = xs ++ inner ∧ OpensAt ys inner ∧
      openBrackets before = openBrackets inner := by
  rcases opensAt_append_iff.1 h with hfirst | ⟨inner, rfl, hinner⟩
  · exact absurd hfirst.mem hxs.1
  · refine ⟨inner, rfl, hinner, ?_⟩
    rw [openBrackets_append, hxs.openBrackets_eq, Int.zero_add]

theorem unbracketed_of_isGap {gap : List Char} (h : IsGap gap) : Unbracketed gap := by
  constructor
  · intro hmem
    exact absurd (h _ hmem) (by decide)
  · intro hmem
    exact absurd (h _ hmem) (by decide)

theorem unbracketed_of_isValue {v : String} (h : IsValue v) : Unbracketed v.toList := by
  constructor
  · intro hmem
    exact absurd (h.2 _ hmem) (by decide)
  · intro hmem
    exact absurd (h.2 _ hmem) (by decide)

theorem unbracketed_heading {v : String} (h : IsValue v) (o : Bool) :
    Unbracketed (heading v o) := by
  have hv := unbracketed_of_isValue h
  cases o with
  | false => exact hv
  | true => exact ⟨by simp [heading, hv.1], by simp [heading, hv.2]⟩

/-! ## Terms -/

theorem Terms.openBrackets_eq {ds : List Scope} {text : List Char} (h : Terms ds text) :
    openBrackets text = 0 := by
  induction h with
  | plain hv => exact (unbracketed_heading hv _).openBrackets_eq
  | block hv hbefore _ hafter ih =>
    simp [(unbracketed_heading hv _).openBrackets_eq, ih,
      (unbracketed_of_isGap hbefore).openBrackets_eq, (unbracketed_of_isGap hafter).openBrackets_eq]
  | more _ hgap _ _ ih ih' => simp [ih, (unbracketed_of_isGap hgap).openBrackets_eq, ih']

theorem exists_chain_length_one {ds : List Scope} (h : ds ≠ []) : ∃ v, Chain ds [v] := by
  obtain ⟨d, hd⟩ := List.exists_mem_of_ne_nil ds h
  exact ⟨d.value, chain_cons.2 ⟨d, hd, rfl, chain_nil _⟩⟩

/-- Where a bracket opens, the terms that are written have a chain that leads into it. -/
theorem Terms.exists_chain {ds : List Scope} {text before : List Char} (h : Terms ds text)
    (hopen : OpensAt text before) :
    ∃ p, Chain ds p ∧ (p.length : Int) = openBrackets before + 2 := by
  induction h generalizing before with
  | plain hv => exact absurd hopen.mem (unbracketed_heading hv _).1
  | @block v o ds gap body gap' hv hbefore hterms hafter ih =>
    rw [List.append_assoc, List.cons_append] at hopen
    obtain ⟨behind, -, hbracket, hcount⟩ := hopen.of_append (unbracketed_heading hv o)
    rw [hcount]
    rcases opensAt_cons_iff.1 hbracket with ⟨rfl, -⟩ | ⟨inside, rfl, hinside⟩
    · obtain ⟨w, hw⟩ := exists_chain_length_one hterms.ne_nil
      exact ⟨[v, w], chain_singleton.2 ⟨rfl, hw⟩, rfl⟩
    · rw [List.append_assoc, List.append_assoc] at hinside
      obtain ⟨row, -, hrow, hcount⟩ := hinside.of_append (unbracketed_of_isGap hbefore)
      rw [openBrackets_opening, hcount]
      rcases opensAt_append_iff.1 hrow with hbody | ⟨last, -, hend⟩
      · obtain ⟨p, hp, hlength⟩ := ih hbody
        refine ⟨v :: p, chain_singleton.2 ⟨rfl, hp⟩, ?_⟩
        rw [List.length_cons, Int.natCast_add, hlength]
        omega
      · have hmem := hend.mem
        simp [(unbracketed_of_isGap hafter).1] at hmem
  | @more t ts text gap rest h hgap hne hrest ih ih' =>
    rw [List.append_assoc] at hopen
    rcases opensAt_append_iff.1 hopen with hfirst | ⟨inner, rfl, hlater⟩
    · obtain ⟨p, hp, hlength⟩ := ih hfirst
      exact ⟨p, hp.mono (by simp), hlength⟩
    · obtain ⟨row, -, hrow, hcount⟩ := hlater.of_append (unbracketed_of_isGap hgap)
      obtain ⟨p, hp, hlength⟩ := ih' hrow
      refine ⟨p, hp.mono (List.subset_cons_self _ _), ?_⟩
      rw [openBrackets_append, h.openBrackets_eq, hcount, Int.zero_add, hlength]

theorem Expression.exists_chain {ds : List Scope} {text before : List Char}
    (h : Expression ds text) (hopen : OpensAt text before) :
    ∃ p, Chain ds p ∧ (p.length : Int) = openBrackets before + 2 := by
  cases h with
  | blank hgap => exact absurd hopen.mem (unbracketed_of_isGap hgap).1
  | row hbefore hbody hafter =>
    rw [List.append_assoc] at hopen
    obtain ⟨row, -, hrow, hcount⟩ := hopen.of_append (unbracketed_of_isGap hbefore)
    rw [hcount]
    rcases opensAt_append_iff.1 hrow with hbracket | ⟨last, -, hend⟩
    · exact hbody.exists_chain hbracket
    · exact absurd hend.mem (unbracketed_of_isGap hafter).1

end Scope

/-! ## Tokens -/

namespace Token

open Scope

/-- The text of a token holds an opening bracket only if the token is one. -/
theorem Fits.opensAt {token : Token} {before : List Char} (h : token.Fits)
    (hopen : OpensAt token.text.toList before) : token.kind = .opening ∧ before = [] := by
  unfold Fits at h
  cases hk : token.kind with
  | opening =>
    rw [hk] at h
    rw [h] at hopen
    rcases opensAt_cons_iff.1 hopen with ⟨hnil, -⟩ | ⟨inner, -, hinner⟩
    · exact ⟨rfl, hnil⟩
    · cases hinner.mem
  | optional | closing =>
    rw [hk] at h
    rw [h] at hopen
    exact absurd hopen.mem (by decide)
  | word =>
    rw [hk] at h
    exact absurd hopen.mem (unbracketed_of_isValue h).1
  | space =>
    rw [hk] at h
    exact absurd hopen.mem (unbracketed_of_isGap h.2).1

theorem Fits.openBrackets_eq {token : Token} (h : token.Fits) :
    openBrackets token.text.toList =
      match token.kind with
      | .opening => 1
      | .closing => -1
      | .optional | .word | .space => 0 := by
  unfold Fits at h
  cases hk : token.kind with
  | opening | closing | optional =>
    rw [hk] at h
    rw [h]
    rfl
  | word =>
    rw [hk] at h
    exact (unbracketed_of_isValue h).openBrackets_eq
  | space =>
    rw [hk] at h
    exact (unbracketed_of_isGap h.2).openBrackets_eq

end Token

namespace Parser.State

open Scope

variable {parser : Parser} {input : String} {st next : State}

@[simp] theorem length_blocks_setCurrent (st : State) (scopes : List Scope) :
    (st.setCurrent scopes).blocks.length = st.blocks.length := by
  cases hb : st.blocks <;> simp [setCurrent, hb]

/-- A token changes the number of open brackets as its text does. -/
theorem length_blocks_step {token : Token} (hfits : token.Fits)
    (hs : st.step parser input token = .ok next) :
    (next.blocks.length : Int) = st.blocks.length + openBrackets token.text.toList := by
  rw [State.step_eq] at hs
  obtain ⟨taken, htaken, hs⟩ := bind_eq_ok_iff.1 hs
  cases hs
  rw [hfits.openBrackets_eq]
  unfold State.take at htaken
  show (taken.blocks.length : Int) = _
  cases hk : token.kind with
  | optional =>
    rw [hk] at htaken
    rw [star_eq_ok htaken, Int.add_zero]
  | word =>
    rw [hk] at htaken
    rw [word_eq_ok htaken, push, length_blocks_setCurrent, Int.add_zero]
  | opening =>
    rw [hk] at htaken
    obtain ⟨-, owner, others, -, rfl⟩ := opening_eq_ok htaken
    rw [withBlock, List.length_cons, length_blocks_setCurrent, Int.natCast_add]
    rfl
  | closing =>
    rw [hk] at htaken
    obtain ⟨-, block, blocks, hblocks, -, rfl⟩ := closing_eq_ok htaken
    have hleft : (st.withoutBlock block blocks).blocks = blocks := rfl
    rw [push, length_blocks_setCurrent, hleft, hblocks, List.length_cons, Int.natCast_add]
    dsimp only
    omega
  | space =>
    rw [hk] at htaken
    rw [space_eq_ok htaken, Int.add_zero]

end Parser.State

end ScopeGrant
