import ScopeGrant.Proofs.Checked.Consent
import ScopeGrant.Proofs.Checked.Scope
import ScopeGrant.Proofs.Checked.Token

/-!
# No input makes an operation be refused

What has been shown for the parts, put together: with every operation checked, the core comes to
what it comes to without the checks, whatever it is given.
-/

namespace ScopeGrant

/-- Tokens are cut out of every text at the places of its characters, also for a reading. Merges and
copies of all scopes find what they take. Building from every list of consents finds what it looks
up and cuts, whether it succeeds or not. What was built is walked to its end, written and matched
without a missing identifier or place and without a difference below zero. -/
theorem nothing_is_refused :
    (∀ input, Token.scanChecked input = some (Token.scan input)) ∧
    (∀ (parser : Parser) input, parser.parseChecked input = some (parser.parse input)) ∧
    (∀ ds, Scope.mergeSiblingsChecked ds = some (Scope.mergeSiblings ds)) ∧
    (∀ s : Scope, s.copyChecked = some s.copy) ∧
    (∀ rootId consents, (ConsentTree.ofListChecked rootId consents).run =
      some (ConsentTree.ofList rootId consents)) ∧
    (∀ rootId consents t, ConsentTree.ofList rootId consents = .ok t →
      t.walkChecked = some t.walk ∧ t.displayChecked = some t.display ∧
      ∀ required, t.matchingChecked required = some (t.matching required) ∧
        t.meetsChecked required = some (t.meets required)) ∧
    (∀ consents, (ConsentForest.ofListChecked consents).run =
      some (ConsentForest.ofList consents)) ∧
    ∀ consents f, ConsentForest.ofList consents = .ok f →
      f.displayChecked = some f.display ∧
      ∀ required, f.meetsAllChecked required = some (f.meetsAll required) := by
  refine ⟨Token.scanChecked_eq, Parser.parseChecked_eq, Scope.mergeSiblingsChecked_eq,
    Scope.copyChecked_eq, fun rootId consents => ?_, fun rootId consents t h => ?_,
    fun consents => ?_, fun consents f h => ?_⟩
  · rw [ConsentTree.ofListChecked_eq]
    rfl
  · have hholds := ConsentTree.holds_of_ofList h
    exact ⟨ConsentTree.walkChecked_eq h, ConsentTree.displayChecked_eq h, fun required =>
      ⟨ConsentTree.matchingChecked_eq hholds required,
        ConsentTree.meetsChecked_eq hholds required⟩⟩
  · rw [ConsentForest.ofListChecked_eq]
    rfl
  · exact ⟨ConsentForest.displayChecked_eq h, ConsentForest.meetsAllChecked_eq h⟩

def umlautConsents : List Consent :=
  [{ id := 2, client := "app", scopeValue := "ö", path := [1, 2] },
    { id := 1, client := "app", scopeValue := "ä", path := [1] }]

/-- The values take two bytes for each character, and the child comes before its parent. -/
theorem nothing_is_refused_of_umlauts :
    (Token.scanChecked "ä[ö] ").map (·.map Token.position) = some [0, 2, 3, 5, 6] ∧
    ∃ f, ConsentForest.ofList umlautConsents = .ok f ∧
      f.displayChecked = some "ä (id=1, client=app)\n  ö (id=2, client=app)\n" ∧
      f.meetsAllChecked [.mk "ä" false [.leaf "ö" false]] = some true := by
  obtain ⟨hscan, -, -, -, -, -, -, hforest⟩ := nothing_is_refused
  have hview : (ConsentForest.ofList umlautConsents).map
      (fun f => (f.display, f.meetsAll [.mk "ä" false [.leaf "ö" false]])) =
      .ok ("ä (id=1, client=app)\n  ö (id=2, client=app)\n", true) := by decide +kernel
  obtain ⟨f, hf, hview⟩ := map_eq_ok_iff.1 hview
  obtain ⟨hdisplay, hmeets⟩ := Prod.mk.inj hview
  obtain ⟨hwritten, hmatched⟩ := hforest _ f hf
  refine ⟨?_, f, hf, hdisplay ▸ hwritten, hmeets ▸ hmatched _⟩
  rw [hscan]
  decide +kernel

end ScopeGrant
