import ScopeGrant.Proofs.Scope.Reading

/-!
# What the grammar writes is read

The other direction: on a text that is written by the grammar the reader never meets a syntax error.
It either collects the written trees, with their repeated siblings merged, or stops at the first
cycle in them (`parse_of_expression`). Together with `parse_sound` this says exactly which
expressions are accepted, and what they stand for.
-/

namespace ScopeGrant.Parser

open Scope Token

namespace State

@[simp] theorem setCurrent_setCurrent (st : State) (xs ys : List Scope) :
    (st.setCurrent xs).setCurrent ys = st.setCurrent ys := by
  cases hb : st.blocks <;> simp [setCurrent, hb]

theorem current_of_fields {st next : State} (htop : next.top = st.top)
    (hblocks : next.blocks = st.blocks) : next.current = st.current := by
  rw [current, current, htop, hblocks]

/-- The states differ in the scopes of the innermost row at most, as far as scopes and owners go. -/
structure Beside (st next : State) : Prop where
  top : (next.setCurrent []).top = (st.setCurrent []).top
  blocks : (next.setCurrent []).blocks = (st.setCurrent []).blocks
  owners : ∀ v, v ∈ next.owners ↔ v ∈ st.owners

namespace Beside

variable {st next final : State}

theorem refl (st : State) : Beside st st :=
  ⟨rfl, rfl, fun _ => Iff.rfl⟩

theorem trans (h : Beside st next) (h' : Beside next final) : Beside st final :=
  ⟨h'.top.trans h.top, h'.blocks.trans h.blocks, fun v => (h'.owners v).trans (h.owners v)⟩

theorem setCurrent (st : State) (scopes : List Scope) : Beside st (st.setCurrent scopes) :=
  ⟨by rw [setCurrent_setCurrent], by rw [setCurrent_setCurrent], fun v => by rw [owners_setCurrent]⟩

/-- What stands before the next token and where the last star was does not matter. -/
theorem of_fields (htop : next.top = st.top) (hblocks : next.blocks = st.blocks)
    (howners : ∀ v, v ∈ next.owners ↔ v ∈ st.owners) : Beside st next := by
  refine ⟨?_, ?_, howners⟩
  · cases hb : st.blocks <;> simp [State.setCurrent, hblocks, hb, htop]
  · cases hb : st.blocks <;> simp [State.setCurrent, hblocks, hb]

theorem setBefore (st : State) (before : Before) : Beside st { st with before } :=
  of_fields rfl rfl fun _ => Iff.rfl

theorem ownerChain (h : Beside st next) : next.ownerChain = st.ownerChain := by
  rw [← ownerChain_setCurrent next [], ← ownerChain_setCurrent st []]
  exact congrArg (fun blocks => (blocks.map (·.owner.value)).reverse) h.blocks

end Beside

theorem Owned.beside {st next : State} (h : st.Owned) (hb : Beside st next) : next.Owned := by
  intro v
  rw [hb.owners v, hb.ownerChain]
  exact h v

end State

open State

section Steps

variable (parser : Parser) (input : String) {st : State} (position : Nat)

theorem run_gap {gap rest : List Char} (hgap : IsGap gap) (hne : gap ≠ [])
    (hrest : ∀ c ∈ rest.head?, Text.isBlank c = false) (hb : st.before ≠ .optional) :
    ∃ next position', st.run parser input position (gap ++ rest) =
        next.run parser input position' rest ∧
      Beside st next ∧ next.current = st.current ∧ next.before = .space := by
  refine ⟨{ st with beforeSpace := st.before, before := .space },
    position + (String.ofList gap).utf8ByteSize, ?_, .of_fields rfl rfl fun _ => Iff.rfl, rfl, rfl⟩
  rw [run_of_tokensFrom (tokensFrom_gap hgap hne position hrest), step_eq, take, State.space,
    if_neg hb]
  rfl

/-- Blank text that need not be there. -/
theorem run_gap? {gap rest : List Char} (hgap : IsGap gap)
    (hrest : ∀ c ∈ rest.head?, Text.isBlank c = false) (hb : st.before ≠ .optional) :
    ∃ next position', st.run parser input position (gap ++ rest) =
        next.run parser input position' rest ∧
      Beside st next ∧ next.current = st.current ∧
      (next.before = st.before ∨ next.before = .space) := by
  by_cases hne : gap = []
  · subst hne
    exact ⟨st, position, rfl, .refl st, rfl, Or.inl rfl⟩
  · obtain ⟨next, position', hrun, hbeside, hcurrent, hbefore⟩ :=
      run_gap parser input position hgap hne hrest hb
    exact ⟨next, position', hrun, hbeside, hcurrent, Or.inr hbefore⟩

theorem run_value {v : String} {rest : List Char} (hv : IsValue v)
    (hrest : ∀ c ∈ rest.head?, isReserved c = true) (howned : st.Owned)
    (hb : st.before ≠ .closing) :
    (v ∈ st.ownerChain ∧ st.run parser input position (v.toList ++ rest) =
        .error (.cycle v (st.ownerChain ++ [v]))) ∨
      v ∉ st.ownerChain ∧ ∃ next position', st.run parser input position (v.toList ++ rest) =
          next.run parser input position' rest ∧
        Beside st next ∧ next.current = leaf v (st.before == .optional) :: st.current ∧
        next.before = .word := by
  rw [run_of_tokensFrom (tokensFrom_value hv position hrest), step_eq, take, State.word, if_neg hb]
  by_cases hmem : v ∈ st.ownerChain
  · left
    rw [if_pos (howned.contains_iff.2 hmem)]
    exact ⟨hmem, rfl⟩
  · right
    rw [if_neg fun h => hmem (howned.contains_iff.1 h)]
    refine ⟨hmem, { st.push (leaf v (st.before == .optional)) with before := .word }, _, rfl, ?_,
      ?_, rfl⟩
    · exact (Beside.setCurrent st _).trans (.of_fields rfl rfl fun _ => Iff.rfl)
    · exact st.current_setCurrent _

theorem run_heading {v : String} (o : Bool) {rest : List Char} (hv : IsValue v)
    (hrest : ∀ c ∈ rest.head?, isReserved c = true) (howned : st.Owned) (hb : st.before.Leads) :
    (v ∈ st.ownerChain ∧ st.run parser input position (heading v o ++ rest) =
        .error (.cycle v (st.ownerChain ++ [v]))) ∨
      v ∉ st.ownerChain ∧ ∃ next position', st.run parser input position (heading v o ++ rest) =
          next.run parser input position' rest ∧
        Beside st next ∧ next.current = leaf v o :: st.current ∧ next.before = .word := by
  have hclosing : st.before ≠ .closing := by
    rcases hb with hb | hb | hb <;> rw [hb] <;> decide
  cases o with
  | false =>
    have hplain : (st.before == .optional) = false := by
      rcases hb with hb | hb | hb <;> rw [hb] <;> decide
    have hvalue := run_value parser input position hv hrest howned hclosing
    rwa [hplain] at hvalue
  | true =>
    -- the star leaves a state from which the value is read as that of an optional scope
    have hstar : st.star input position = .ok { st with optionalAt := position } := by
      rcases hb with hb | hb | hb <;> simp [State.star, hb]
    have hrun : st.run parser input position (heading v true ++ rest) =
        State.run parser input (position + (String.ofList ['*']).utf8ByteSize) (v.toList ++ rest)
          { st with optionalAt := position, before := .optional } := by
      rw [heading, if_pos rfl, List.singleton_append, List.cons_append,
        run_of_tokensFrom (tokensFrom_mark position _ rfl fun _ => rfl), step_eq, take, hstar]
      rfl
    rw [hrun]
    have hbeside : Beside st { st with optionalAt := position, before := .optional } :=
      .of_fields rfl rfl fun _ => Iff.rfl
    rcases run_value parser input (position + (String.ofList ['*']).utf8ByteSize) hv hrest
      (howned.beside hbeside) (by simp) with
      hcycle | ⟨hmem, next, position', hnext, hnb, hcurrent, hbefore⟩
    · exact Or.inl hcycle
    · exact Or.inr ⟨hmem, next, position', hnext, hbeside.trans hnb, hcurrent, hbefore⟩

theorem run_opening {owner : Scope} {others : List Scope} (hb : st.before = .word)
    (hcurrent : st.current = owner :: others) (rest : List Char) :
    ∃ position', st.run {} input position ('[' :: rest) =
      State.run {} input position' rest
        { (st.setCurrent others).withBlock owner position with before := .opening } := by
  refine ⟨position + (String.ofList ['[']).utf8ByteSize, ?_⟩
  have hfault : st.openingFault? position = none := by rw [openingFault?, hb]
  have hstep : st.opening {} input position =
      .ok ((st.setCurrent others).withBlock owner position) := by
    rw [State.opening, hfault]
    simp only [full, Bool.false_eq_true, if_false, hcurrent]
    rfl
  rw [run_of_tokensFrom (tokensFrom_mark position rest rfl fun _ => rfl), step_eq, take, hstep]
  rfl

theorem run_closing {block : Block} {blocks : List Block}
    (hb : st.before ≠ .optional) (hblocks : st.blocks = block :: blocks) (hne : block.scopes ≠ [])
    (rest : List Char) :
    ∃ position', st.run parser input position (']' :: rest) =
      State.run parser input position' rest
        { (st.withoutBlock block blocks).push
            (block.owner.setDependencies (normalize block.scopes.reverse)) with
          before := .closing } := by
  refine ⟨position + (String.ofList [']']).utf8ByteSize, ?_⟩
  have hstep : st.closing input position = .ok ((st.withoutBlock block blocks).push
      (block.owner.setDependencies (normalize block.scopes.reverse))) := by
    have hempty : block.scopes.isEmpty = false := by simpa using hne
    rw [State.closing, if_neg hb, hblocks]
    simp only [hempty, Bool.false_eq_true, if_false, value_setDependencies]
    rfl
  rw [run_of_tokensFrom (tokensFrom_mark position rest rfl fun _ => rfl), step_eq, take, hstep]
  rfl

end Steps

/-! ## Whole rows -/

/-- What comes of reading terms that write `ds`, and then `rest`: the error of the first cycle, or
what comes of reading `rest` from a state that holds the trees. -/
inductive Ending (input : String) (st : State) (ds : List Scope) (rest : List Char) :
    Except ScopeError State → Prop where
  | cycle {owners : List String} {v : String}
      (h : firstCycleList? st.ownerChain ds = some (owners, v)) :
      Ending input st ds rest (.error (.cycle v (owners ++ [v])))
  | read {next : State} {position : Nat} (h : firstCycleList? st.ownerChain ds = none)
      (hbeside : Beside st next) (hcurrent : next.current = (ds.map collapse).reverse ++ st.current)
      (hbefore : next.before = .word ∨ next.before = .closing) :
      Ending input st ds rest (next.run {} input position rest)

theorem ne_optional_of_ends {before : Before} (h : before = .word ∨ before = .closing) :
    before ≠ .optional := by
  rintro rfl
  simp at h

/-- A state inside brackets is known by the brackets and by the row inside them. -/
theorem blocks_of_beside {st next : State} {owner : Scope} {position : Nat}
    (h : Beside (st.withBlock owner position) next) :
    next.top = st.top ∧ next.blocks = ⟨owner, position, next.current⟩ :: st.blocks := by
  obtain ⟨htop, hblocks, -⟩ := h
  cases hb : next.blocks with
  | nil => simp [State.setCurrent, withBlock, hb] at hblocks
  | cons block blocks =>
    obtain ⟨powner, pat, pscopes⟩ := block
    simp [State.setCurrent, withBlock, hb] at htop hblocks
    obtain ⟨⟨rfl, rfl⟩, rfl⟩ := hblocks
    simp [current, hb, htop]

/-- An opening bracket behind the head of a term leads inside the brackets. -/
theorem run_enter (input : String) {st : State} (position : Nat) {owner : Scope}
    {others : List Scope} {before : List Char} (hb : st.before = .word)
    (hcurrent : st.current = owner :: others) (hbefore : IsGap before) {rest : List Char}
    (hrest : ∀ c ∈ rest.head?, Text.isBlank c = false) :
    ∃ next position', st.run {} input position ('[' :: (before ++ rest)) =
        next.run {} input position' rest ∧
      Beside ((st.setCurrent others).withBlock owner position) next ∧ next.current = [] ∧
      next.before.Leads := by
  obtain ⟨position₁, hrun₁⟩ := run_opening input position hb hcurrent (before ++ rest)
  have hopening : ({ (st.setCurrent others).withBlock owner position with before := .opening } :
      State).before ≠ .optional := by simp
  obtain ⟨next, position₂, hrun₂, hbeside₂, hcurrent₂, hbefore₂⟩ :=
    run_gap? {} input position₁ hbefore hrest hopening
  refine ⟨next, position₂, hrun₁.trans hrun₂, (Beside.setBefore _ .opening).trans hbeside₂,
    hcurrent₂, ?_⟩
  rcases hbefore₂ with h | h
  · exact Or.inr (Or.inr h)
  · exact Or.inr (Or.inl h)

/-- A closing bracket behind a row leads out of the brackets again, to a state that holds the whole
term. -/
theorem run_leave (input : String) {st next : State} (position openedAt : Nat) {v : String}
    {o : Bool} {ds : List Scope} {after : List Char} (howned : st.Owned) (hv : v ∉ st.ownerChain)
    (hinside : Beside (st.withBlock (leaf v o) openedAt) next) (hds : ds ≠ [])
    (hcurrent : next.current = (ds.map collapse).reverse)
    (hb : next.before = .word ∨ next.before = .closing) (hafter : IsGap after) (rest : List Char) :
    ∃ final position', next.run {} input position (after ++ ']' :: rest) =
        final.run {} input position' rest ∧
      Beside st final ∧ final.current = (Scope.mk v o ds).collapse :: st.current ∧
      final.before = .closing := by
  have hclose : ∀ c ∈ (']' :: rest).head?, Text.isBlank c = false := by
    rintro c ⟨⟩
    decide
  obtain ⟨st₁, position₁, hrun₁, hbeside₁, hcurrent₁, hbefore₁⟩ :=
    run_gap? {} input position hafter hclose (ne_optional_of_ends hb)
  have hne₁ : st₁.before ≠ .optional := by
    rcases hbefore₁ with h | h
    · rw [h]
      exact ne_optional_of_ends hb
    · simp [h]
  have hrow : st₁.current = (ds.map collapse).reverse := hcurrent₁.trans hcurrent
  have hne : st₁.current ≠ [] := by
    rw [hrow]
    simpa using hds
  have hbeside := hinside.trans hbeside₁
  obtain ⟨htop, hblocks⟩ := blocks_of_beside hbeside
  obtain ⟨position₂, hrun₂⟩ := run_closing {} input position₁ hne₁ hblocks hne rest
  -- the brackets are gone again, with the value that their owner had added to the owners
  have hchain : (st₁.withoutBlock ⟨leaf v o, openedAt, st₁.current⟩ st.blocks).ownerChain =
      st.ownerChain := rfl
  have houtside := ((howned.withBlock (leaf v o) openedAt).beside hbeside).withoutBlock hblocks
    (by rwa [hchain])
  have hwithout : Beside st (st₁.withoutBlock ⟨leaf v o, openedAt, st₁.current⟩ st.blocks) :=
    .of_fields htop rfl fun w => (houtside w).trans (howned w).symm
  have hleft : (st₁.withoutBlock ⟨leaf v o, openedAt, st₁.current⟩ st.blocks).current =
      st.current := current_of_fields htop rfl
  refine ⟨_, position₂, hrun₁.trans hrun₂,
    (hwithout.trans (.setCurrent _ _)).trans (.setBefore _ _), ?_, rfl⟩
  change (State.push _ _).current = _
  rw [State.push, current_setCurrent, hleft, hrow, List.reverse_reverse, setDependencies_normalize]

/-- Reading a row of terms, from a state in which a term may begin. -/
theorem run_terms (input : String) {ds : List Scope} {text : List Char} (h : Terms ds text)
    (st : State) (rest : List Char) (position : Nat) (hb : st.before.Leads) (howned : st.Owned)
    (hrest : ∀ c ∈ rest.head?, isReserved c = true) :
    Ending input st ds rest (st.run {} input position (text ++ rest)) := by
  induction h generalizing st rest position with
  | @plain v o hv =>
    rcases run_heading {} input position o hv hrest howned hb with
      ⟨hmem, hrun⟩ | ⟨hmem, next, position', hrun, hbeside, hcurrent, hbefore⟩
    · rw [hrun]
      exact .cycle (by simp [firstCycle?, leaf, hmem])
    · rw [hrun]
      exact .read (by simp [firstCycle?, firstCycleList?, leaf, hmem]) hbeside
        (by simp [hcurrent, collapse_leaf]) (Or.inl hbefore)
  | @block v o ds before body after hv hbefore hbody hafter ih =>
    have htext : heading v o ++ '[' :: (before ++ body ++ after) ++ [']'] ++ rest =
        heading v o ++ '[' :: (before ++ (body ++ (after ++ ']' :: rest))) := by simp
    rw [htext]
    have hopen : ∀ c ∈ ('[' :: (before ++ (body ++ (after ++ ']' :: rest)))).head?,
        isReserved c = true := by
      rintro c ⟨⟩
      decide
    rcases run_heading {} input position o hv hopen howned hb with
      ⟨hmem, hrun⟩ | ⟨hmem, next, position', hrun, hbeside, hcurrent, hword⟩
    · rw [hrun]
      exact .cycle (by simp [firstCycle?, hmem])
    · obtain ⟨st₁, position₁, hrun₁, hinside, hcurrent₁, hlead₁⟩ := run_enter input position' hword
        hcurrent hbefore (hbody.head (after ++ ']' :: rest))
      have hhead : ∀ c ∈ (after ++ ']' :: rest).head?, isReserved c = true :=
        isReserved_head_gap hafter fun _ => by simp [isReserved]
      -- beside the row inside the brackets stands the state before the head of the term
      have hout : Beside st (next.setCurrent st.current) := hbeside.trans (.setCurrent _ _)
      have hchain : (next.setCurrent st.current).ownerChain = st.ownerChain := hout.ownerChain
      have howned' := howned.beside hout
      have hend := ih st₁ (after ++ ']' :: rest) position₁ hlead₁
        ((howned'.withBlock _ _).beside hinside) hhead
      have hchain₁ : st₁.ownerChain = st.ownerChain ++ [v] := by
        rw [hinside.ownerChain, ownerChain_withBlock, hchain]
        rfl
      have hcycle : firstCycleList? st.ownerChain [Scope.mk v o ds] =
          firstCycleList? st₁.ownerChain ds := by
        rw [hchain₁, firstCycleList?_singleton, firstCycle?, if_neg hmem]
      rw [hrun, hrun₁]
      generalize hresult : st₁.run {} input position₁ (body ++ (after ++ ']' :: rest)) = result
        at hend
      cases hend with
      | cycle h => exact .cycle (hcycle.trans h)
      | @read st₂ position₂ h hbeside₂ hcurrent₂ hbefore₂ =>
        rw [hcurrent₁, List.append_nil] at hcurrent₂
        obtain ⟨final, position₃, hrun₃, hbeside₃, hcurrent₃, hbefore₃⟩ := run_leave input position₂
          position' howned' (hchain.symm ▸ hmem) (hinside.trans hbeside₂) hbody.ne_nil hcurrent₂
          hbefore₂ hafter rest
        rw [hrun₃]
        refine .read (hcycle.trans h) (hout.trans hbeside₃) ?_ (Or.inr hbefore₃)
        rw [hcurrent₃, current_setCurrent]
        rfl
  | @more t ts text gap row h hgap hne hrow ih ih' =>
    have htext : text ++ gap ++ row ++ rest = text ++ (gap ++ (row ++ rest)) := by simp
    have hhead : ∀ c ∈ (gap ++ (row ++ rest)).head?, isReserved c = true :=
      isReserved_head_gap hgap fun h => absurd h hne
    have hend := ih st (gap ++ (row ++ rest)) position hb howned hhead
    rw [htext]
    generalize hresult : st.run {} input position (text ++ (gap ++ (row ++ rest))) = result at hend
    cases hend with
    | cycle h => exact .cycle (by rw [firstCycleList?, ← firstCycleList?_singleton, h]; rfl)
    | @read st₁ position₁ h₁ hbeside₁ hcurrent₁ hbefore₁ =>
      obtain ⟨st₂, position₂, hrun₂, hbeside₂, hcurrent₂, hbefore₂⟩ :=
        run_gap {} input position₁ hgap hne (hrow.head rest) (ne_optional_of_ends hbefore₁)
      rw [hrun₂]
      have hbeside := hbeside₁.trans hbeside₂
      have hend' := ih' st₂ rest position₂ (Or.inr (Or.inl hbefore₂)) (howned.beside hbeside) hrest
      generalize hresult' : st₂.run {} input position₂ (row ++ rest) = result' at hend'
      have hcycle : firstCycleList? st.ownerChain (t :: ts) =
          firstCycleList? st₂.ownerChain ts := by
        rw [hbeside.ownerChain, firstCycleList?, ← firstCycleList?_singleton, h₁]
        rfl
      cases hend' with
      | cycle h => exact .cycle (hcycle.trans h)
      | read h hbeside₃ hcurrent₃ hbefore₃ =>
        refine .read (hcycle.trans h) (hbeside.trans hbeside₃) ?_ hbefore₃
        rw [hcurrent₃, hcurrent₂, hcurrent₁]
        simp

/-! ## Whole expressions -/

/-- Outside all brackets, with no star left over, the scopes read are the result. -/
theorem finish_of_beside {input : String} {st : State} (h : Beside {} st)
    (hb : st.before ≠ .optional) : st.finish input = .ok st.current.reverse := by
  have hblocks : st.blocks = [] := by
    have := h.blocks
    cases hb : st.blocks <;> simp [State.setCurrent, hb] at this ⊢
  rw [State.finish, if_neg hb, current, hblocks]

/-- Blank text at the end changes nothing. -/
theorem run_finish (parser : Parser) (input : String) (position : Nat) {st : State}
    {gap : List Char} (h : Beside {} st) (hb : st.before ≠ .optional) (hgap : IsGap gap) :
    st.run parser input position gap >>= State.finish input = .ok st.current.reverse := by
  have hnil : ∀ c ∈ ([] : List Char).head?, Text.isBlank c = false := by simp
  obtain ⟨next, position', hrun, hbeside, hcurrent, hbefore⟩ :=
    run_gap? parser input position hgap hnil hb
  have hnext : next.before ≠ .optional := by
    rcases hbefore with h | h
    · rwa [h]
    · simp [h]
  rw [List.append_nil] at hrun
  rw [hrun, run_nil, ok_bind, finish_of_beside (h.trans hbeside) hnext, hcurrent]

/-- An expression that is written by the grammar is accepted, unless it has a cycle: then the error
is about the first one. -/
theorem parse_of_expression {input : String} {ds : List Scope} (h : Expression ds input.toList) :
    (∃ owners v, firstCycleList? [] ds = some (owners, v) ∧
        Scope.parse input = .error (.cycle v (owners ++ [v]))) ∨
      firstCycleList? [] ds = none ∧ Scope.parse input = .ok (ds.map collapse) := by
  have howned : ({} : State).Owned := fun v => by simp [State.ownerChain]
  have hstart : ({} : State).before ≠ .optional := by simp
  rw [Scope.parse, parse_eq]
  generalize input.toList = text at h
  cases h with
  | blank hgap => exact Or.inr ⟨rfl, run_finish {} input 0 (.refl _) hstart hgap⟩
  | @row _ before body after hbefore hbody hafter =>
    obtain ⟨st, position, hrun, hbeside, hcurrent, hlead⟩ :=
      run_gap? {} input 0 hbefore (hbody.head after) hstart
    have hleads : st.before.Leads := hlead.elim Or.inl fun h => Or.inr (Or.inl h)
    have hhead : ∀ c ∈ after.head?, isReserved c = true := fun c hc =>
      isReserved_of_isBlank (hafter c (List.mem_of_mem_head? hc))
    have hend := run_terms input hbody st after position hleads (howned.beside hbeside) hhead
    rw [List.append_assoc, hrun]
    generalize st.run {} input position (body ++ after) = result at hend
    cases hend with
    | @cycle owners v h =>
      left
      rw [hbeside.ownerChain] at h
      exact ⟨owners, v, h, rfl⟩
    | read h hbeside' hcurrent' hbefore' =>
      right
      rw [hbeside.ownerChain] at h
      refine ⟨h, ?_⟩
      rw [run_finish {} input _ (hbeside.trans hbeside') (ne_optional_of_ends hbefore') hafter,
        hcurrent', hcurrent]
      simp [State.current]

/-- An expression is accepted exactly if the grammar writes it without a cycle. The result are the
written trees with their repeated siblings merged. -/
theorem parse_eq_ok_iff {input : String} {scopes : List Scope} :
    Scope.parse input = .ok scopes ↔
      ∃ ds, Expression ds input.toList ∧ Clear [] ds ∧ scopes = ds.map collapse := by
  constructor
  · exact parse_sound
  · rintro ⟨ds, hexpr, hclear, rfl⟩
    have hnone := (firstCycleList?_eq_none_iff List.nodup_nil).2 hclear
    rcases parse_of_expression hexpr with ⟨owners, v, hsome, -⟩ | ⟨-, hparse⟩
    · rw [hnone] at hsome
      cases hsome
    · exact hparse

/-- Whichever way the grammar writes an accepted text, the trees that are read are the written ones
with their repeated siblings merged. -/
theorem eq_map_collapse_of_parse {input : String} {scopes ds : List Scope}
    (hparse : Scope.parse input = .ok scopes) (h : Expression ds input.toList) :
    scopes = ds.map collapse := by
  rcases parse_of_expression h with ⟨owners, v, -, herror⟩ | ⟨-, hok⟩
  · rw [hparse] at herror
    cases herror
  · exact Except.ok.inj (hparse.symm.trans hok)

/-- The reader accepts a text exactly if it is an expression of the grammar and none of the scopes
that it writes down stands anywhere inside the brackets of a scope with the same value. -/
theorem exists_parse_eq_ok_iff (input : String) :
    (∃ scopes, Scope.parse input = .ok scopes) ↔
      (∃ ds, Expression ds input.toList) ∧
        ∀ ds, Expression ds input.toList → ∀ d ∈ ds, d.Acyclic := by
  constructor
  · rintro ⟨scopes, hparse⟩
    obtain ⟨ds, hexpr, -, -⟩ := parse_sound hparse
    refine ⟨⟨ds, hexpr⟩, fun es hes => ?_⟩
    rw [← clear_top_iff, ← firstCycleList?_eq_none_iff List.nodup_nil]
    rcases parse_of_expression hes with ⟨owners, v, -, herror⟩ | ⟨hnone, -⟩
    · rw [hparse] at herror
      cases herror
    · exact hnone
  · rintro ⟨⟨ds, hexpr⟩, hacyclic⟩
    exact ⟨_, parse_eq_ok_iff.2 ⟨ds, hexpr, clear_top_iff.2 (hacyclic ds hexpr), rfl⟩⟩

/-- A single term is read unless it has a cycle, and the result is the written tree with its
repeated siblings merged. -/
theorem parseOne_eq_ok_iff {text : String} {s r : Scope} (h : Terms [s] text.toList) :
    Scope.parseOne text = .ok r ↔ Clear [] [s] ∧ r = s.collapse := by
  have hblank : Text.isBlankText text = false := by
    obtain ⟨c, tail, hcons, hc⟩ := h.exists_eq_cons
    rw [Text.isBlankText, hcons, List.all_cons, hc, Bool.false_and]
  have hexpr : Expression [s] text.toList := by
    simpa using Expression.row isGap_nil h isGap_nil
  rw [Scope.parseOne, Parser.parseOne, hblank, if_neg Bool.false_ne_true,
    ← firstCycleList?_eq_none_iff List.nodup_nil]
  rcases parse_of_expression hexpr with ⟨owners, v, hcycle, hparse⟩ | ⟨hnone, hparse⟩
  · rw [Scope.parse] at hparse
    simp [hparse, hcycle]
  · rw [Scope.parse, List.map_singleton] at hparse
    simp [hparse, hnone, eq_comm]

end ScopeGrant.Parser
