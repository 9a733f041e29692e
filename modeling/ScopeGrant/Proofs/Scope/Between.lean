import Mathlib
import ScopeGrant.Proofs.Scope.Refusal

/-!
# What holds between two tokens

The reader looks up the owners of the open brackets in a set of values that it keeps beside the
brackets themselves. The set is right only because owners differ, and they do because a word that
may become an owner has been looked up before. `Steady` holds these facts together: the set has the
values of the owners, these are different, nothing that has been read inside brackets carries the
value of an owner around it, and siblings differ in all scopes that have been read. Every token
keeps it. Behind a word the scope that was read last is the one of this word, so that an opening
bracket always finds its owner.
-/

namespace ScopeGrant.Parser

open Relation Scope Token

/-- Nothing inside the open brackets carries the value of one of the owners around it. -/
def ClearOfOwners (blocks : List Block) : Prop :=
  ∀ block outer, block :: outer <:+ blocks → ∀ s ∈ block.scopes, ∀ t, ReflTransGen Depends s t →
    t.value ∉ (block :: outer).map (·.owner.value)

theorem clearOfOwners_nil : ClearOfOwners [] := by
  intro block outer h
  cases List.suffix_nil.1 h

theorem clearOfOwners_cons {block : Block} {outer : List Block} :
    ClearOfOwners (block :: outer) ↔
      (∀ s ∈ block.scopes, ∀ t, ReflTransGen Depends s t →
        t.value ∉ (block :: outer).map (·.owner.value)) ∧ ClearOfOwners outer := by
  constructor
  · intro h
    exact ⟨h block outer (List.suffix_refl _), fun inner around hsuffix =>
      h inner around (hsuffix.trans (List.suffix_cons _ _))⟩
  · rintro ⟨hblock, houter⟩ inner around hsuffix
    rcases List.suffix_cons_iff.1 hsuffix with heq | hsuffix
    · obtain ⟨rfl, rfl⟩ := List.cons.inj heq
      exact hblock
    · exact houter inner around hsuffix

namespace State

/-- The scope has been read, at the top level or inside open brackets. -/
def Collected (st : State) (s : Scope) : Prop :=
  s ∈ st.top ∨ ∃ block ∈ st.blocks, s ∈ block.scopes

theorem Collected.of_current {st : State} {s : Scope} (h : s ∈ st.current) : st.Collected s := by
  unfold current at h
  split at h
  · exact Or.inl h
  · rename_i block blocks hblocks
    exact Or.inr ⟨block, by rw [hblocks]; exact List.mem_cons_self .., h⟩

theorem Collected.of_setCurrent {st : State} {scopes : List Scope} {s : Scope}
    (h : (st.setCurrent scopes).Collected s) : s ∈ scopes ∨ st.Collected s := by
  unfold setCurrent at h
  split at h
  · rename_i hblocks
    exact h.imp_right fun hinside => Or.inr hinside
  · rename_i block blocks hblocks
    rcases h with htop | ⟨other, hother, hs⟩
    · exact Or.inr (Or.inl htop)
    · rcases List.mem_cons.1 hother with rfl | hother
      · exact Or.inl hs
      · exact Or.inr (Or.inr ⟨other, by rw [hblocks]; exact List.mem_cons_of_mem _ hother, hs⟩)

/-- What holds between two tokens. -/
structure Steady (st : State) : Prop where
  owned : st.Owned
  distinct : st.ownerChain.Nodup
  clear : ClearOfOwners st.blocks
  tidy : ∀ s, st.Collected s → s.Tidy

end State

/-- A value inside merged scopes is one inside the scopes before they were merged. -/
theorem exists_inside_of_normalize {ds : List Scope} {d t : Scope} (hd : d ∈ normalize ds)
    (ht : ReflTransGen Depends d t) :
    ∃ e ∈ ds, ∃ u, ReflTransGen Depends e u ∧ u.value = t.value := by
  obtain ⟨p, hp⟩ := exists_chain_of_inside ht
  have hchain : Chain ds (p ++ [t.value]) := (chain_normalize ds _).1 (hp.of_mem hd)
  exact hchain.exists_inside (by simp)

namespace State.Steady

variable {parser : Parser} {input : String} {st next : State} {position : Nat}

theorem init : Steady {} := by
  refine ⟨fun v => by simp [ownerChain], List.nodup_nil, clearOfOwners_nil, ?_⟩
  rintro s (htop | ⟨block, hblock, -⟩)
  · cases htop
  · cases hblock

/-- What stands in the innermost brackets is clear of all owners. -/
theorem not_mem_ownerChain (h : Steady st) {s t : Scope} (hs : s ∈ st.current)
    (ht : ReflTransGen Depends s t) : t.value ∉ st.ownerChain := by
  rw [ownerChain, List.mem_reverse]
  unfold current at hs
  split at hs
  · rename_i hblocks
    rw [hblocks]
    exact List.not_mem_nil
  · rename_i block blocks hblocks
    have hclear := h.clear
    rw [hblocks] at hclear ⊢
    exact (clearOfOwners_cons.1 hclear).1 s hs t ht

/-- The row in the innermost brackets may be replaced by scopes that are as good. -/
theorem setCurrent (h : Steady st) {scopes : List Scope} (htidy : ∀ s ∈ scopes, s.Tidy)
    (hclear : ∀ s ∈ scopes, ∀ t, ReflTransGen Depends s t → t.value ∉ st.ownerChain) :
    Steady (st.setCurrent scopes) := by
  refine ⟨h.owned.setCurrent scopes, ?_, ?_, fun s hs => ?_⟩
  · rw [ownerChain_setCurrent]
    exact h.distinct
  · have hblocks := h.clear
    unfold State.setCurrent
    split
    · rename_i hnone
      rw [hnone]
      exact clearOfOwners_nil
    · rename_i block blocks hsome
      rw [hsome, clearOfOwners_cons] at hblocks
      refine clearOfOwners_cons.2 ⟨fun s hs t ht hmem => hclear s hs t ht ?_, hblocks.2⟩
      rw [ownerChain, List.mem_reverse, hsome]
      exact hmem
  · exact hs.of_setCurrent.elim (htidy s) (h.tidy s)

/-- A scope may be added to the row. -/
theorem push (h : Steady st) {s : Scope} (htidy : s.Tidy)
    (hclear : ∀ t, ReflTransGen Depends s t → t.value ∉ st.ownerChain) : Steady (st.push s) := by
  refine h.setCurrent ?_ ?_
  · exact List.forall_mem_cons.2 ⟨htidy, fun x hx => h.tidy x (.of_current hx)⟩
  · exact List.forall_mem_cons.2 ⟨hclear, fun x hx t ht => h.not_mem_ownerChain hx ht⟩

/-- A scope whose value no owner has may become one. -/
theorem withBlock (h : Steady st) {owner : Scope} (howner : owner.value ∉ st.ownerChain)
    (position : Nat) : Steady (st.withBlock owner position) := by
  refine ⟨h.owned.withBlock owner position, ?_, ?_, ?_⟩
  · rw [ownerChain_withBlock, ← List.concat_eq_append]
    exact h.distinct.concat howner
  · exact clearOfOwners_cons.2 ⟨List.forall_mem_nil _, h.clear⟩
  · rintro s (htop | ⟨block, hblock, hs⟩)
    · exact h.tidy s (Or.inl htop)
    · rcases List.mem_cons.1 hblock with rfl | hblock
      · cases hs
      · exact h.tidy s (Or.inr ⟨block, hblock, hs⟩)

theorem owner_not_mem (h : Steady st) {block : Block} {blocks : List Block}
    (hblocks : st.blocks = block :: blocks) :
    block.owner.value ∉ (st.withoutBlock block blocks).ownerChain := by
  have hdistinct := h.distinct
  rw [ownerChain_withoutBlock hblocks, ← List.concat_eq_append, List.nodup_concat] at hdistinct
  exact hdistinct.1

/-- The innermost brackets may be taken away; no other brackets have their owner. -/
theorem withoutBlock (h : Steady st) {block : Block} {blocks : List Block}
    (hblocks : st.blocks = block :: blocks) : Steady (st.withoutBlock block blocks) := by
  have hdistinct := h.distinct
  have hclear := h.clear
  rw [ownerChain_withoutBlock hblocks] at hdistinct
  rw [hblocks, clearOfOwners_cons] at hclear
  refine ⟨h.owned.withoutBlock hblocks (h.owner_not_mem hblocks), hdistinct.of_append_left,
    hclear.2, ?_⟩
  rintro s (htop | ⟨other, hother, hs⟩)
  · exact h.tidy s (Or.inl htop)
  · exact h.tidy s (Or.inr ⟨other, by rw [hblocks]; exact List.mem_cons_of_mem _ hother, hs⟩)

/-! ## Token by token -/

theorem word (h : Steady st) {v : String} (hs : st.word input v position = .ok next) :
    Steady next := by
  have hfresh := h.owned.not_mem_of_word hs
  obtain rfl := State.word_eq_ok hs
  have hinside : ∀ t, ReflTransGen Depends (leaf v (st.before == .optional)) t →
      t = leaf v (st.before == .optional) := by
    intro t ht
    rcases reflTransGen_depends_iff.1 ht with rfl | ⟨d, hd, -⟩
    · rfl
    · cases hd
  refine h.push (fun t ht => ?_) fun t ht => ?_
  · rw [hinside t ht]
    exact List.nodup_nil
  · rw [hinside t ht]
    exact hfresh

theorem opening (h : Steady st) (hs : st.opening parser input position = .ok next) :
    Steady next := by
  obtain ⟨-, owner, others, hcurrent, rfl⟩ := State.opening_eq_ok hs
  have hcurrents : ∀ s ∈ owner :: others, s ∈ st.current := fun s hs => hcurrent ▸ hs
  have hothers : ∀ s ∈ others, s ∈ st.current :=
    fun s hs => hcurrents s (List.mem_cons_of_mem _ hs)
  have hleft : Steady (st.setCurrent others) :=
    h.setCurrent (fun s hs => h.tidy s (.of_current (hothers s hs)))
      fun s hs t ht => h.not_mem_ownerChain (hothers s hs) ht
  refine hleft.withBlock ?_ position
  rw [ownerChain_setCurrent]
  exact h.not_mem_ownerChain (hcurrents owner (List.mem_cons_self ..)) .refl

theorem closing (h : Steady st) (hs : st.closing input position = .ok next) : Steady next := by
  obtain ⟨-, block, blocks, hblocks, -, rfl⟩ := State.closing_eq_ok hs
  have hcurrent : st.current = block.scopes := by rw [current, hblocks]
  have hbelow : ∀ s ∈ block.scopes.reverse, s ∈ st.current := by
    intro s hs
    rw [hcurrent]
    exact List.mem_reverse.1 hs
  refine (h.withoutBlock hblocks).push ?_ (forall_inside_iff.2 ⟨?_, ?_⟩)
  · rw [tidy_iff, dependencies_setDependencies]
    exact tidyList_normalize fun s hs => h.tidy s (.of_current (hbelow s hs))
  · rw [value_setDependencies]
    exact h.owner_not_mem hblocks
  · -- merging brings in no values, and those in the brackets are clear of the owners around them
    rw [dependencies_setDependencies]
    intro d hd t ht
    obtain ⟨e, he, u, hu, hvalue⟩ := exists_inside_of_normalize hd ht
    have hchain := h.not_mem_ownerChain (hbelow e he) hu
    rw [ownerChain_withoutBlock hblocks, hvalue] at hchain
    exact fun hmem => hchain (List.mem_append_left _ hmem)

/-- Every token that is taken in keeps what holds between two tokens. -/
theorem step {token : Token} (h : Steady st) (hs : st.step parser input token = .ok next) :
    Steady next := by
  rw [step_eq] at hs
  obtain ⟨taken, htaken, hs⟩ := bind_eq_ok_iff.1 hs
  cases hs
  suffices htake : Steady taken from ⟨htake.owned, htake.distinct, htake.clear, htake.tidy⟩
  unfold take at htaken
  cases hk : token.kind with
  | optional =>
    rw [hk] at htaken
    obtain rfl := star_eq_ok htaken
    exact ⟨h.owned, h.distinct, h.clear, h.tidy⟩
  | word =>
    rw [hk] at htaken
    exact h.word htaken
  | opening =>
    rw [hk] at htaken
    exact h.opening htaken
  | closing =>
    rw [hk] at htaken
    exact h.closing htaken
  | space =>
    rw [hk] at htaken
    obtain rfl := space_eq_ok htaken
    exact ⟨h.owned, h.distinct, h.clear, h.tidy⟩

theorem run {tokens : List Token} (h : tokens.foldlM (State.step parser input) {} = .ok st) :
    Steady st :=
  foldlM_invariant (P := fun _ st => Steady st) (fun _ _ _ _ hst hs => hst.step hs) init h

end State.Steady

/-! ## Behind a word -/

namespace State

variable {parser : Parser} {input : String} {st : State} {tokens : List Token}

theorem openingFault?_eq_none_iff {position : Nat} :
    st.openingFault? position = none ↔ st.before = .word := by
  unfold openingFault?
  cases hb : st.before with
  | space => simp only [reduceCtorEq, iff_false]; split <;> simp
  | start | optional | word | opening | closing => simp

/-- What stands before the next token is told by the last token. -/
theorem before_of_run (h : tokens.foldlM (State.step parser input) {} = .ok st) :
    st.before = (tokens.getLast?.map fun token => .ofKind token.kind).getD .start := by
  refine foldlM_invariant (P := fun tokens st =>
    st.before = (tokens.getLast?.map fun token => .ofKind token.kind).getD .start) ?_ rfl h
  intro tokens token st next _ hs
  rw [before_of_step hs, List.getLast?_concat]
  rfl

/-- The scope of a word that has just been read stands at the front of its row, and it is optional
if there is a star before the word. -/
theorem current_of_run_concat {token : Token} (hk : token.kind = .word)
    (h : (tokens ++ [token]).foldlM (State.step parser input) {} = .ok st) :
    ∃ others, st.current =
      leaf token.text (tokens.getLast?.any (·.kind == .optional)) :: others := by
  rw [List.foldlM_append] at h
  obtain ⟨previous, hprevious, hlast⟩ := bind_eq_ok_iff.1 h
  rw [List.foldlM_cons] at hlast
  obtain ⟨next, hstep, hnext⟩ := bind_eq_ok_iff.1 hlast
  cases hnext
  rw [step_eq] at hstep
  obtain ⟨taken, htaken, hstep⟩ := bind_eq_ok_iff.1 hstep
  cases hstep
  unfold take at htaken
  rw [hk] at htaken
  obtain rfl := word_eq_ok htaken
  have hstar : (previous.before == .optional) = tokens.getLast?.any (·.kind == .optional) := by
    rw [before_of_run hprevious]
    cases tokens.getLast? with
    | none => rfl
    | some star => cases hstar : star.kind <;> simp [hstar, Before.ofKind]
  refine ⟨previous.current, ?_⟩
  rw [← hstar]
  exact current_setCurrent previous _

/-- With a word before it, a bracket opens for the scope at the front of the row. -/
theorem opening_eq_of_word {owner : Scope} {others : List Scope} (hb : st.before = .word)
    (hcurrent : st.current = owner :: others) (hfull : st.full parser = false) (position : Nat) :
    st.opening parser input position = .ok ((st.setCurrent others).withBlock owner position) := by
  rw [opening, openingFault?_eq_none_iff.2 hb]
  simp only [hfull, hcurrent]
  rfl

end State

/-- Whatever tokens of a text have been taken in, the set of owners holds the values of the scopes
that own the open brackets, and these differ; nothing that has been read inside brackets carries, at
any depth, the value of their owner or of one further out; and siblings differ in every scope that
has been read. Behind a word the scope that was read last is the one of this word, without
dependencies, so an opening bracket that may stand there takes this scope for its owner and never
finds the row empty. -/
theorem run_keeps_owners_and_rows {parser : Parser} {input : String} {tokens : List Token}
    {st : State} (h : tokens.foldlM (State.step parser input) {} = .ok st) :
    (∀ v, v ∈ st.owners ↔ v ∈ st.ownerChain) ∧
    st.ownerChain.Nodup ∧
    (∀ block outer, block :: outer <:+ st.blocks → ∀ s ∈ block.scopes,
      ∀ t, ReflTransGen Depends s t → t.value ∉ (block :: outer).map (·.owner.value)) ∧
    (∀ s, st.Collected s → s.Tidy) ∧
    (st.before = .word → ∃ earlier token others, tokens = earlier ++ [token] ∧
      token.kind = .word ∧
      st.current = leaf token.text (earlier.getLast?.any (·.kind == .optional)) :: others ∧
      ∀ position, st.full parser = false →
        st.opening parser input position =
          .ok ((st.setCurrent others).withBlock
            (leaf token.text (earlier.getLast?.any (·.kind == .optional))) position)) ∧
    ∀ position, st.openingFault? position = none → st.current ≠ [] := by
  have hsteady := State.Steady.run h
  have hword : st.before = .word → ∃ earlier token others, tokens = earlier ++ [token] ∧
      token.kind = .word ∧
      st.current = leaf token.text (earlier.getLast?.any (·.kind == .optional)) :: others := by
    intro hb
    rw [State.before_of_run h] at hb
    cases hlast : tokens.getLast? with
    | none => rw [hlast] at hb; cases hb
    | some token =>
      rw [hlast] at hb
      obtain ⟨earlier, rfl⟩ := List.getLast?_eq_some_iff.1 hlast
      have hk := Before.ofKind_eq_word hb
      obtain ⟨others, hcurrent⟩ := State.current_of_run_concat hk h
      exact ⟨earlier, token, others, rfl, hk, hcurrent⟩
  refine ⟨hsteady.owned, hsteady.distinct, hsteady.clear, hsteady.tidy, fun hb => ?_,
    fun position hfault => ?_⟩
  · obtain ⟨earlier, token, others, htokens, hk, hcurrent⟩ := hword hb
    exact ⟨earlier, token, others, htokens, hk, hcurrent,
      fun position hfull => State.opening_eq_of_word hb hcurrent hfull position⟩
  · obtain ⟨earlier, token, others, -, -, hcurrent⟩ :=
      hword (State.openingFault?_eq_none_iff.1 hfault)
    rw [hcurrent]
    exact List.cons_ne_nil _ _

/-- What stands in the brackets of `a` once a pair of brackets has been closed there and a star and
a word were read. -/
def rowBehindClosed : List Scope :=
  [leaf "c" true, Scope.mk "b" false [leaf "x" false]]

/-- Inside the brackets of `a` a pair of brackets has been closed, and then a star and a word were
read. The brackets that could open next would belong to this word. -/
theorem run_keeps_owners_and_rows_of_closed :
    ∃ st : State,
      (Token.scan "a[b[x] *c").foldlM (State.step {} "a[b[x] *c") {} = .ok st ∧
      st.ownerChain = ["a"] ∧
      (∀ v, v ∈ st.owners ↔ v ∈ ["a"]) ∧
      st.current = rowBehindClosed ∧
      (∀ s ∈ st.current, ∀ t, ReflTransGen Depends s t → t.value ≠ "a") ∧
      ∃ next, st.opening {} "a[b[x] *c" 9 = .ok next ∧ next.ownerChain = ["a", "c"] := by
  have hrun : (Token.scan "a[b[x] *c").foldlM (State.step {} "a[b[x] *c") {} =
      .ok {
        blocks := [⟨leaf "a" false, 1, rowBehindClosed⟩]
        owners := (((∅ : Std.ExtTreeSet String).insert "a").insert "b").erase "b"
        before := .word
        beforeSpace := .closing
        optionalAt := 7 } := by cbv
  obtain ⟨howned, -, hclear, -, hword, -⟩ := run_keeps_owners_and_rows hrun
  obtain ⟨earlier, token, others, -, -, hcurrent, hopening⟩ := hword rfl
  refine ⟨_, hrun, rfl, howned, rfl, fun s hs t ht => ?_, _, hopening 9 rfl, ?_⟩
  · have hvalue := hclear _ _ (List.suffix_refl _) s hs t ht
    simpa [leaf] using hvalue
  · obtain ⟨hword, -⟩ := List.cons.inj hcurrent
    rw [State.ownerChain_withBlock, ← hword]
    rfl

end ScopeGrant.Parser
