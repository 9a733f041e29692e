import ScopeGrant.Proofs.Except
import ScopeGrant.Scope.Cache
import Mathlib.Data.List.Dedup

/-!
# What a cache answers and counts

A cache is told apart from its parser by nothing but its counts: whatever was asked for before, an
expression is answered as the parser answers it. The counts in turn are told by the expressions that
were asked for since the cache was last cleared (`usage`). Both follow from one invariant that ties
the cache to these expressions (`Reflects`), which reading and clearing preserve.
-/

namespace ScopeGrant

/-- What a cache is asked to do. -/
inductive CacheCall where
  /-- Read an expression. -/
  | parse (input : String)
  /-- Forget all expressions and all counts. -/
  | clear

namespace CacheCall

/-- What the parser itself answers. Clearing has no answer. -/
def expected (parser : Parser) : CacheCall → Option (Except ScopeError (List Scope))
  | parse input => some (parser.parse input)
  | clear => none

/-- The expressions asked for since the last clearing, if those before the call were `inputs`. -/
def note (inputs : List String) : CacheCall → List String
  | parse input => inputs ++ [input]
  | clear => []

/-- The expressions asked for since the last clearing, in order. -/
def asked (calls : List CacheCall) : List String :=
  calls.foldl note []

theorem length_asked_le (calls : List CacheCall) : (asked calls).length ≤ calls.length := by
  induction calls using List.reverseRecOn with
  | nil => exact Nat.le_refl 0
  | append_singleton calls call ih =>
    rw [asked, List.foldl_append, List.foldl_cons, List.foldl_nil, List.length_append]
    cases call with
    | parse input =>
      rw [note, List.length_append]
      exact Nat.add_le_add_right ih 1
    | clear => exact Nat.zero_le _

end CacheCall

namespace ScopeCache

/-- The answer to a call, and the cache afterwards. -/
def answer (cache : ScopeCache) : CacheCall → Option (Except ScopeError (List Scope)) × ScopeCache
  | .parse input => (some (cache.parse input).1, (cache.parse input).2)
  | .clear => (none, cache.clear)

/-- The answers to calls that are made one after the other, and the cache afterwards. -/
def run (cache : ScopeCache) :
    List CacheCall → List (Option (Except ScopeError (List Scope))) × ScopeCache
  | [] => ([], cache)
  | call :: calls =>
    let (result, next) := cache.answer call
    let (results, last) := next.run calls
    (result :: results, last)

/-! ## The counts that are due -/

/-- Whether the expression at a place of a row was read without fault at an earlier place. -/
def isKnown (parser : Parser) (inputs : List String) (place : Nat) : Bool :=
  inputs[place]?.any fun input => (inputs.take place).contains input && (parser.parse input).isOk

/-- The counts for a row of expressions that were asked for: the places where an expression was
known, the other places, and the different expressions that can be read. -/
def usage (parser : Parser) (inputs : List String) : CacheStats where
  hits := (List.range inputs.length).countP fun place => isKnown parser inputs place
  misses := (List.range inputs.length).countP fun place => !isKnown parser inputs place
  entries := (inputs.filter fun input => (parser.parse input).isOk).dedup.length

example : usage {} ["a[", "b", "a[", "b"] = ⟨1, 3, 1⟩ := by decide +kernel

variable {parser : Parser} {inputs : List String} {input : String} {cache : ScopeCache}

theorem isKnown_concat_of_lt {place : Nat} (h : place < inputs.length) :
    isKnown parser (inputs ++ [input]) place = isKnown parser inputs place := by
  rw [isKnown, isKnown, List.getElem?_append_left h, List.take_append_of_le_length (Nat.le_of_lt h)]

/-- The last expression is known if it stands before and can be read. -/
theorem isKnown_concat_length_iff :
    isKnown parser (inputs ++ [input]) inputs.length = true ↔
      input ∈ inputs ∧ ∃ scopes, parser.parse input = .ok scopes := by
  rw [isKnown, List.getElem?_concat_length, List.take_left, Option.any_some, Bool.and_eq_true,
    List.contains_iff_mem]
  refine and_congr_right fun _ => ?_
  cases parser.parse input with
  | error e => simp [Except.isOk, Except.toBool]
  | ok scopes => simp [Except.isOk, Except.toBool]

theorem countP_isKnown_concat (parser : Parser) (inputs : List String) (input : String)
    (f : Bool → Bool) :
    ((List.range (inputs ++ [input]).length).countP fun place =>
        f (isKnown parser (inputs ++ [input]) place)) =
      ((List.range inputs.length).countP fun place => f (isKnown parser inputs place)) +
        if f (isKnown parser (inputs ++ [input]) inputs.length) then 1 else 0 := by
  have hbefore : ∀ place ∈ List.range inputs.length,
      (f (isKnown parser (inputs ++ [input]) place) = true ↔
        f (isKnown parser inputs place) = true) := by
    intro place hplace
    rw [isKnown_concat_of_lt (List.mem_range.1 hplace)]
  rw [List.length_append, List.length_singleton, List.range_succ, List.countP_append,
    List.countP_congr hbefore, List.countP_singleton]

theorem usage_concat_of_known (hmem : input ∈ inputs) {scopes : List Scope}
    (hok : parser.parse input = .ok scopes) :
    (usage parser (inputs ++ [input])).hits = (usage parser inputs).hits + 1 ∧
      (usage parser (inputs ++ [input])).misses = (usage parser inputs).misses := by
  have hknown := isKnown_concat_length_iff.2 ⟨hmem, scopes, hok⟩
  have hhits := countP_isKnown_concat parser inputs input id
  have hmisses := countP_isKnown_concat parser inputs input not
  rw [hknown] at hhits hmisses
  exact ⟨hhits, hmisses⟩

theorem usage_concat_of_not_known
    (h : ¬ (input ∈ inputs ∧ ∃ scopes, parser.parse input = .ok scopes)) :
    (usage parser (inputs ++ [input])).hits = (usage parser inputs).hits ∧
      (usage parser (inputs ++ [input])).misses = (usage parser inputs).misses + 1 := by
  have hunknown : isKnown parser (inputs ++ [input]) inputs.length = false := by
    rw [← Bool.not_eq_true, isKnown_concat_length_iff]
    exact h
  have hhits := countP_isKnown_concat parser inputs input id
  have hmisses := countP_isKnown_concat parser inputs input not
  rw [hunknown] at hhits hmisses
  exact ⟨hhits, hmisses⟩

theorem hits_add_misses_usage (parser : Parser) (inputs : List String) :
    (usage parser inputs).hits + (usage parser inputs).misses = inputs.length := by
  have hsplit := List.length_eq_countP_add_countP (isKnown parser inputs)
    (l := List.range inputs.length)
  rw [List.length_range] at hsplit
  rw [hsplit]
  simp only [usage, Bool.not_eq_true, Bool.decide_eq_false]

/-! ## The invariant -/

/-- The cache holds what its parser reads out of the expressions asked for, and counts them. -/
structure Reflects (parser : Parser) (inputs : List String) (cache : ScopeCache) : Prop where
  parser_eq : cache.parser = parser
  entries : ∀ input scopes,
    cache.entries[input]? = some scopes ↔ input ∈ inputs ∧ parser.parse input = .ok scopes
  hits : cache.hits = (usage parser inputs).hits
  misses : cache.misses = (usage parser inputs).misses

theorem mem_concat_and_ok_iff {other : String} {found : List Scope} :
    other ∈ inputs ++ [input] ∧ parser.parse other = .ok found ↔
      (other ∈ inputs ∧ parser.parse other = .ok found) ∨
        (other = input ∧ parser.parse other = .ok found) := by
  rw [List.mem_append, List.mem_singleton, or_and_right]

namespace Reflects

variable {scopes : List Scope}

theorem init (parser : Parser) : Reflects parser [] { parser } :=
  ⟨rfl, fun input scopes => by simp, rfl, rfl⟩

theorem clear (h : Reflects parser inputs cache) : Reflects parser [] cache.clear := by
  rw [ScopeCache.clear, h.parser_eq]
  exact init parser

theorem hit (h : Reflects parser inputs cache) (hfound : cache.entries[input]? = some scopes) :
    Reflects parser (inputs ++ [input]) { cache with hits := cache.hits + 1 } := by
  -- what is found has been asked for before, so no further entry is due
  obtain ⟨hmem, hok⟩ := (h.entries input scopes).1 hfound
  obtain ⟨hhits, hmisses⟩ := usage_concat_of_known hmem hok
  refine ⟨h.parser_eq, fun other found => ?_, ?_, ?_⟩
  · show cache.entries[other]? = some found ↔ _
    rw [h.entries other found, mem_concat_and_ok_iff]
    refine (or_iff_left_of_imp ?_).symm
    rintro ⟨rfl, hread⟩
    exact ⟨hmem, hread⟩
  · rw [hhits, ← h.hits]
  · rw [hmisses, ← h.misses]

theorem refuse (h : Reflects parser inputs cache) {e : ScopeError}
    (herror : parser.parse input = .error e) :
    Reflects parser (inputs ++ [input]) { cache with misses := cache.misses + 1 } := by
  -- no entry is due for what cannot be read, and it is not known when it comes again
  have hnot : ∀ scopes, parser.parse input ≠ .ok scopes := by
    intro scopes hok
    rw [herror] at hok
    cases hok
  have hunknown : ¬ (input ∈ inputs ∧ ∃ scopes, parser.parse input = .ok scopes) :=
    fun hknown => hknown.2.elim hnot
  obtain ⟨hhits, hmisses⟩ := usage_concat_of_not_known hunknown
  refine ⟨h.parser_eq, fun other found => ?_, ?_, ?_⟩
  · show cache.entries[other]? = some found ↔ _
    rw [h.entries other found, mem_concat_and_ok_iff]
    refine (or_iff_left ?_).symm
    rintro ⟨rfl, hread⟩
    exact hnot found hread
  · rw [hhits, ← h.hits]
  · rw [hmisses, ← h.misses]

theorem keep (h : Reflects parser inputs cache) (hmissed : cache.entries[input]? = none)
    (hok : parser.parse input = .ok scopes) :
    Reflects parser (inputs ++ [input])
      { cache with
        misses := cache.misses + 1
        entries := cache.entries.insert input scopes } := by
  -- what can be read and is not found has not been asked for before
  have hnew : input ∉ inputs := by
    intro hmem
    have hfound := (h.entries input scopes).2 ⟨hmem, hok⟩
    rw [hmissed] at hfound
    cases hfound
  have hunknown : ¬ (input ∈ inputs ∧ ∃ scopes, parser.parse input = .ok scopes) :=
    fun hknown => hnew hknown.1
  obtain ⟨hhits, hmisses⟩ := usage_concat_of_not_known hunknown
  refine ⟨h.parser_eq, fun other found => ?_, ?_, ?_⟩
  · show (cache.entries.insert input scopes)[other]? = some found ↔ _
    rw [mem_concat_and_ok_iff, ← h.entries other found]
    by_cases hother : other = input
    · subst hother
      simp [hmissed, hok]
    · have hcompare : compare input other ≠ .eq := by
        rw [ne_eq, Std.compare_eq_iff_eq]
        exact Ne.symm hother
      rw [Std.ExtTreeMap.getElem?_insert, if_neg hcompare]
      simp [hother]
  · rw [hhits, ← h.hits]
  · rw [hmisses, ← h.misses]

/-- Reading answers as the parser does and keeps the invariant. -/
theorem parse (h : Reflects parser inputs cache) (input : String) :
    (cache.parse input).1 = parser.parse input ∧
      Reflects parser (inputs ++ [input]) (cache.parse input).2 := by
  obtain rfl := h.parser_eq
  unfold ScopeCache.parse
  cases hfound : cache.entries[input]? with
  | some scopes => exact ⟨((h.entries input scopes).1 hfound).2.symm, h.hit hfound⟩
  | none =>
    cases hread : cache.parser.parse input with
    | error e => exact ⟨rfl, h.refuse hread⟩
    | ok scopes => exact ⟨rfl, h.keep hfound hread⟩

theorem answer (h : Reflects parser inputs cache) (call : CacheCall) :
    (cache.answer call).1 = call.expected parser ∧
      Reflects parser (call.note inputs) (cache.answer call).2 := by
  cases call with
  | parse input =>
    obtain ⟨hanswer, hafter⟩ := h.parse input
    exact ⟨congrArg some hanswer, hafter⟩
  | clear => exact ⟨rfl, h.clear⟩

/-- So does every row of calls. -/
theorem run (h : Reflects parser inputs cache) (calls : List CacheCall) :
    (cache.run calls).1 = calls.map (·.expected parser) ∧
      Reflects parser (calls.foldl CacheCall.note inputs) (cache.run calls).2 := by
  induction calls generalizing inputs cache with
  | nil => exact ⟨rfl, h⟩
  | cons call calls ih =>
    obtain ⟨hanswer, hafter⟩ := h.answer call
    obtain ⟨hanswers, hlast⟩ := ih hafter
    refine ⟨?_, hlast⟩
    rw [List.map_cons, ← hanswer, ← hanswers]
    rfl

/-- There is one entry for each of the different expressions that were read. -/
theorem size_eq (h : Reflects parser inputs cache) : cache.size = (usage parser inputs).entries := by
  have hmem : ∀ input, input ∈ cache.entries.keys ↔
      input ∈ (inputs.filter fun input => (parser.parse input).isOk).dedup := by
    intro input
    rw [Std.ExtTreeMap.mem_keys, ← Std.ExtTreeMap.isSome_getElem?_iff_mem,
      Option.isSome_iff_exists, List.mem_dedup, List.mem_filter]
    simp only [h.entries, exists_and_left]
    refine and_congr_right fun _ => ?_
    cases parser.parse input with
    | error e => simp [Except.isOk, Except.toBool]
    | ok scopes => simp [Except.isOk, Except.toBool]
  have hperm := (List.perm_ext_iff_of_nodup Std.ExtTreeMap.nodup_keys (List.nodup_dedup _)).2 hmem
  rw [ScopeCache.size, ← Std.ExtTreeMap.length_keys, hperm.length_eq]
  rfl

theorem stats_eq (h : Reflects parser inputs cache) : cache.stats = usage parser inputs := by
  rw [stats, h.hits, h.misses, h.size_eq]

end Reflects

theorem reflects_run (parser : Parser) (calls : List CacheCall) :
    Reflects parser (CacheCall.asked calls) (run { parser } calls).2 :=
  ((Reflects.init parser).run calls).2

/-- Whatever was asked for before, a cache answers as its parser does. After each of the calls the
cache counts, among the expressions asked for since it was last cleared, those that had been read
without fault before as hits and all others as misses, and keeps an entry for each different one
that was read. No count is greater than the number of calls. -/
theorem run_eq_expected_and_stats_eq_usage (parser : Parser) (calls : List CacheCall) :
    (run { parser } calls).1 = calls.map (·.expected parser) ∧
    ∀ n, let cache := (run { parser } (calls.take n)).2
      let inputs := CacheCall.asked (calls.take n)
      cache.stats = usage parser inputs ∧ cache.size = cache.stats.entries ∧
        cache.stats.hits + cache.stats.misses = inputs.length ∧ inputs.length ≤ calls.length := by
  refine ⟨((Reflects.init parser).run calls).1, fun n => ?_⟩
  have h := reflects_run parser (calls.take n)
  refine ⟨h.stats_eq, rfl, ?_, ?_⟩
  · rw [h.stats_eq]
    exact hits_add_misses_usage parser _
  · exact Nat.le_trans (CacheCall.length_asked_le _) (List.length_take_le' n calls)

end ScopeCache

end ScopeGrant
