import ScopeGrant.Proofs.Json.Decoder
import ScopeGrant.Proofs.Scope.RoundTrip
import ScopeGrant.Scope.Json

/-!
# Scopes read back from JSON

Two languages lie on top of each other: a literal says a text, whatever way its characters are
written, and the text says a scope. Reading the literal undoes the first and leaves the second to
the reader of scopes, whose errors are passed on as they are. Nothing but a literal is read as a
scope (`ofJson_eq_ok_iff`).
-/

namespace ScopeGrant.Scope

open Json

/-- A literal is read as the one scope of the text that it says. -/
theorem ofJson_of_isLiteralOf {literal t : String} (h : IsLiteralOf literal t) :
    ofJson literal =
      match parseOne t with
      | .ok scope => .ok scope
      | .error e => .error (.mismatch (.scope e)) :=
  (denotes_text h).decodeText_refine _

/-- A scope is read from a literal of just those texts that hold one, and blank characters may
surround the literal. -/
theorem ofJson_eq_ok_iff {input : String} {n : Scope} :
    ofJson input = .ok n ↔ ∃ t, HoldsLiteralOf input t ∧ parseOne t = .ok n := by
  rw [ofJson, decoder, decodeText_text_refine_eq_ok_iff]
  refine exists_congr fun t => and_congr_right fun _ => ?_
  cases parseOne t <;> simp

theorem denotes_toJson {n : Scope} (h : n.WellFormed) : Denotes decoder n.toJson n.ordered :=
  (denotes_writeText n.render).refine (by rw [parseOne_render h])

theorem listOfJson_listToJson_of_wellFormed {ns : List Scope} (h : ∀ n ∈ ns, n.WellFormed) :
    listOfJson (listToJson ns) = .ok (ns.map ordered) :=
  (denotes_writeArray_map fun n hn => denotes_toJson (h n hn)).decodeText_eq

/-- Any list of scopes that can be made is read back from JSON with as many scopes, each equal to
the one that was written. A literal is read as a scope exactly if the text that it says is, and it
fails with the wording of the same error otherwise. Nothing but such a literal is read as a scope,
and blank characters may surround it. -/
theorem listOfJson_listToJson_and_ofJson_iff :
    (∀ ns : List Scope, (∀ n ∈ ns, n.Reachable) →
      ∃ ms, listOfJson (listToJson ns) = .ok ms ∧
        List.Forall₂ (fun m n => m.equal n = true) ms ns) ∧
    (∀ literal t : String, IsLiteralOf literal t →
      (∀ n, ofJson literal = .ok n ↔ parseOne t = .ok n) ∧
      ∀ e, parseOne t = .error e →
        ∃ fault, ofJson literal = .error fault ∧ fault.message? = some e.message) ∧
    ∀ (input : String) (n : Scope),
      ofJson input = .ok n ↔ ∃ t, HoldsLiteralOf input t ∧ parseOne t = .ok n := by
  refine ⟨?_, ?_, fun _ _ => ofJson_eq_ok_iff⟩
  · intro ns hns
    refine ⟨_, listOfJson_listToJson_of_wellFormed fun n hn => (hns n hn).wellFormed, ?_⟩
    rw [List.forall₂_map_left_iff, List.forall₂_same]
    exact fun n _ => equal_ordered n
  · intro literal t hliteral
    rw [ofJson_of_isLiteralOf hliteral]
    constructor
    · intro n
      cases parseOne t <;> simp
    · intro e he
      exact ⟨.mismatch (.scope e), by rw [he], rfl⟩

/-- A scope whose value is written with three escapes. -/
def escapedScope : Scope :=
  mk "\"\\\x01" false [leaf "ü" true, leaf "b" false]

/-- A list that is written with escapes, a literal that is a surrogate pair, and one that says
a text with a cycle. -/
theorem listOfJson_listToJson_and_ofJson_iff_of_escapes :
    escapedScope.Reachable ∧
    (∃ ms, listOfJson "[\"\\\"\\\\\\u0001[b *ü]\"]" = .ok ms ∧
      List.Forall₂ (fun m n => m.equal n = true) ms [escapedScope]) ∧
    IsLiteralOf "\"\\ud83D\\uDe00\"" "😀" ∧
    ofJson "\"\\ud83D\\uDe00\"" = .ok (leaf "😀" false) ∧
    IsLiteralOf "\"a[a]\"" "a[a]" ∧
    ∃ fault, ofJson "\"a[a]\"" = .error fault ∧
      fault.message? = some "Scope dependency cycle on 'a': a -> a" := by
  have hread : Scope.parse "\"\\\x01[*ü b]" = .ok [escapedScope] := by cbv
  have hwritten : listToJson [escapedScope] = "[\"\\\"\\\\\\u0001[b *ü]\"]" := by cbv
  have hone : parseOne "😀" = .ok (leaf "😀" false) := by cbv
  have hcycle : parseOne "a[a]" = .error (.cycle "a" ["a", "a"]) := by cbv
  have hescaped : IsLiteralOf "\"\\ud83D\\uDe00\"" "😀" := by
    have hhigh : CodeUnit 0xD83D ['d', '8', '3', 'D'] :=
      .digits (i := 13) (j := 8) (k := 3) (l := 13) (.inl rfl) (.inl rfl) (.inl rfl) (.inr rfl)
    have hlow : CodeUnit 0xDE00 ['D', 'e', '0', '0'] :=
      .digits (i := 13) (j := 14) (k := 0) (l := 0) (.inr rfl) (.inl rfl) (.inl rfl) (.inl rfl)
    exact ⟨_, .cons (.pair (by decide) hhigh hlow) .nil, by cbv⟩
  have hplain : IsLiteralOf "\"a[a]\"" "a[a]" := by
    have hwritten : writeText "a[a]" = "\"a[a]\"" := by cbv
    rw [← hwritten]
    exact isLiteralOf_writeText _
  have hreachable : escapedScope.Reachable := .parse hread (List.mem_singleton_self _)
  obtain ⟨hlists, hliterals, -⟩ := listOfJson_listToJson_and_ofJson_iff
  have hlist := hlists _ (List.forall_mem_singleton.2 hreachable)
  rw [hwritten] at hlist
  refine ⟨hreachable, hlist, hescaped, ?_, hplain, ?_⟩
  · exact ((hliterals _ _ hescaped).1 _).2 hone
  · exact (hliterals _ _ hplain).2 _ hcycle

end ScopeGrant.Scope
