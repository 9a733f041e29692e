import ScopeGrant.Consent.Json
import ScopeGrant.Requirement.Collect
import ScopeGrant.Settings.Load

/-!
# Evaluation

An evaluation starts from texts alone: the answer of a consent service, a settings document and a
scope expression. It tells whether the expression is met, and what of the required scopes of the
settings is not. The first thing that fails decides the error.
-/

namespace ScopeGrant

/-- What can go wrong in an evaluation. -/
inductive EvaluationError where
  /-- A scope expression is not in order. -/
  | scope (error : ScopeError)
  /-- The consents do not make a forest. -/
  | forest (error : ForestError)
  /-- The settings are not in order. -/
  | settings (error : SettingsError)
  /-- The answer of the consent service cannot be read. -/
  | json (fault : Json.Fault)
deriving Repr, DecidableEq, Inhabited

/-- The error in words, where it has any. -/
def EvaluationError.message? : EvaluationError → Option String
  | scope error => some ("Scope error: " ++ error.message)
  | forest error => some ("Consent forest error: " ++ error.message)
  | settings error => error.message?.map ("Configuration error: " ++ ·)
  | json fault => fault.message?.map ("JSON error: " ++ ·)

/-- What an evaluation comes to. -/
structure Evaluation where
  /-- Whether all scopes of the expression are met. -/
  met : Bool
  /-- The decision about the required scopes of the settings. -/
  decision : Decision

/-- Evaluate the consents in the answer of a service against a settings document and a scope
expression. -/
def evaluate (body document required : String) : Except EvaluationError Evaluation := do
  let consents ← (Consent.listOfJson body).mapError .json
  let forest ← (ConsentForest.ofList consents).mapError .forest
  let settings ← (Settings.ofDocument document).mapError .settings
  let requirements ← (Requirements.ofSettings settings).mapError .settings
  let met ← (forest.meetsCached { parser := settings.parser } required).1.mapError .scope
  return { met, decision := requirements.check forest }

end ScopeGrant
