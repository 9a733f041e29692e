import ScopeGrant.Proofs.Scope.Cache
import ScopeGrant.Proofs.Scope.Limit
import ScopeGrant.Proofs.Scope.Rebuild
import ScopeGrant.Requirement.Demand

/-!
# Every way of asking gives the same answer

Requirements are asked for as text, as scopes that have been read, or as text through a cache. What
counts of a demand is which scopes it stands for (`meetsDemand_eq`): scopes may be handed over or
lent, alone or in a list. The cache reads with its own parser, which may have a bound, and may answer
out of a reading that was made long ago. The history of a cache does not show in its answers, and a
bound shows in only one way, so all of these agree or the bound was met (`meetsCached_agrees`).
-/

namespace ScopeGrant

/-! ## What a demand stands for -/

/-- The scopes that a demand stands for: those that a text is read as, or else the given ones. -/
def Demand.stated : Demand → Except ScopeError (List Scope)
  | text input => Scope.parse input
  | one s | lentOne s => .ok [s]
  | many scopes | lentMany scopes => .ok scopes

/-- What is lent is not changed by copying it. -/
theorem Demand.scopes_eq_stated (demand : Demand) : demand.scopes = demand.stated := by
  cases demand with
  | text input => rfl
  | one s => rfl
  | many scopes => rfl
  | lentOne s => rw [scopes, stated, Scope.copy_eq]
  | lentMany scopes =>
    rw [Demand.scopes, stated, List.map_congr_left fun s _ => Scope.copy_eq s, List.map_id']

namespace ConsentForest

variable {f : ConsentForest} {parser : Parser} {inputs : List String} {cache : ScopeCache}

theorem meetsAll_eq_decide (f : ConsentForest) (required : List Scope) :
    f.meetsAll required = decide (∀ r ∈ required, f.meets r = true) := by
  rw [meetsAll, Bool.eq_iff_iff, List.all_eq_true, decide_eq_true_iff]

/-- The form in which a demand is stated does not count. -/
theorem meetsDemand_eq (f : ConsentForest) (demand : Demand) :
    f.meetsDemand demand = demand.stated.map f.meetsAll := by
  show (demand.scopes >>= fun scopes => pure (f.meetsAll scopes)) = _
  rw [demand.scopes_eq_stated]
  cases demand.stated <;> rfl

/-! ## Requirements that are read through a cache -/

/-- Asking through a cache answers what the parser of the cache reads, and is one more reading for
the cache, so that forests may share it. -/
theorem meetsCached_of_reflects (f : ConsentForest) (h : cache.Reflects parser inputs)
    (input : String) :
    (f.meetsCached cache input).1 = (parser.parse input).map f.meetsAll ∧
      (f.meetsCached cache input).2.Reflects parser (inputs ++ [input]) := by
  obtain ⟨hread, hafter⟩ := h.parse input
  refine ⟨?_, hafter⟩
  show (cache.parse input).1.map f.meetsAll = _
  rw [hread]

/-- Whatever a cache has been used for, asking through it answers whether all scopes are met that its
parser reads, or how the parser fails. Without a bound this is the answer for the text, and if the
text can be read, for its scopes in every form that states them: a single scope or a list, handed
over or lent. With a bound it is the answer for the text, unless the text is found to be nested too
deep. -/
theorem meetsCached_agrees (f : ConsentForest) (parser : Parser) (calls : List CacheCall)
    (input : String) :
    let cache := (ScopeCache.run { parser } calls).2
    let answer := (f.meetsCached cache input).1
    cache.parser = parser ∧
    answer = (parser.parse input).map (fun scopes => decide (∀ r ∈ scopes, f.meets r = true)) ∧
    (parser.maxDepth = none →
      answer = f.meetsDemand (.text input) ∧
      ∀ scopes, Scope.parse input = .ok scopes →
        ∀ demand : Demand, demand.stated = .ok scopes → answer = f.meetsDemand demand) ∧
    (answer = f.meetsDemand (.text input) ∨
      ∃ position, answer = .error (.parse .tooDeep position input)) := by
  intro cache answer
  have hcache : cache.Reflects parser (CacheCall.asked calls) := ScopeCache.reflects_run parser calls
  have hanswer : answer = (parser.parse input).map f.meetsAll :=
    (meetsCached_of_reflects f hcache input).1
  refine ⟨hcache.parser_eq, ?_, fun hunbounded => ?_, ?_⟩
  · have hmeets : f.meetsAll = fun scopes => decide (∀ r ∈ scopes, f.meets r = true) :=
      funext (meetsAll_eq_decide f)
    rw [hanswer, hmeets]
  · have hform : ∀ demand : Demand, demand.stated = Scope.parse input →
        answer = f.meetsDemand demand := by
      intro demand hstated
      rw [hanswer, Parser.parse_of_maxDepth_eq_none hunbounded, meetsDemand_eq, hstated]
    refine ⟨hform _ rfl, fun scopes hread demand hstated => ?_⟩
    exact hform demand (hstated.trans hread.symm)
  · rcases Parser.parse_eq_or_tooDeep parser input with hsame | ⟨position, hdeep⟩
    · left
      rw [hanswer, hsame, meetsDemand_eq, Demand.stated]
    · right
      refine ⟨position, ?_⟩
      rw [hanswer, hdeep]
      rfl

-- a bound shows where the text is read without it, and where it is refused for another reason
example :
    let cache := (ScopeCache.run { parser := ⟨some 1⟩ } [.parse "a", .clear, .parse "a[b]"]).2
    let ask := fun input => ((meetsCached ⟨[]⟩ cache input).1, meetsDemand ⟨[]⟩ (.text input))
    ask "a[b]" = (.ok false, .ok false) ∧
      ask "a[b[c]]" = (.error (.parse .tooDeep 3 "a[b[c]]"), .ok false) ∧
      ask "a[b[]" = (.error (.parse .tooDeep 3 "a[b[]"), .error (.parse .emptyBrackets 3 "a[b[]")) := by
  cbv

end ConsentForest

end ScopeGrant
