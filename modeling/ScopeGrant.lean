import ScopeGrant.Text.Blank
import ScopeGrant.Text.Hidden
import ScopeGrant.Text.Digit
import ScopeGrant.Text.Quoted
import ScopeGrant.Text.Taken
import ScopeGrant.Numeric.Power
import ScopeGrant.Numeric.Word
import ScopeGrant.Numeric.Binary64
import ScopeGrant.Numeric.Decimal
import ScopeGrant.Numeric.Reading
import ScopeGrant.Scope.Basic
import ScopeGrant.Scope.Error
import ScopeGrant.Scope.Token
import ScopeGrant.Scope.Rebuild
import ScopeGrant.Scope.Sibling
import ScopeGrant.Scope.Parser
import ScopeGrant.Scope.Order
import ScopeGrant.Scope.Printer
import ScopeGrant.Scope.Equality
import ScopeGrant.Scope.Containment
import ScopeGrant.Scope.Builder
import ScopeGrant.Scope.Outline
import ScopeGrant.Scope.Cache
import ScopeGrant.Scope.Json
import ScopeGrant.Json.Fault
import ScopeGrant.Json.Token
import ScopeGrant.Json.Decoder
import ScopeGrant.Json.Writer
import ScopeGrant.Consent.Record
import ScopeGrant.Consent.Tree
import ScopeGrant.Consent.Matching
import ScopeGrant.Consent.Forest
import ScopeGrant.Consent.Json
import ScopeGrant.Requirement.Demand
import ScopeGrant.Requirement.Set
import ScopeGrant.Requirement.Collect
import ScopeGrant.Settings.Entries
import ScopeGrant.Settings.Setting
import ScopeGrant.Settings.KeyPath
import ScopeGrant.Settings.Basic
import ScopeGrant.Settings.Decode
import ScopeGrant.Settings.Environment
import ScopeGrant.Settings.Files
import ScopeGrant.Settings.Load
import ScopeGrant.Toml.Reader
import ScopeGrant.Toml.Quoted
import ScopeGrant.Toml.Number
import ScopeGrant.Toml.Moment
import ScopeGrant.Toml.Key
import ScopeGrant.Toml.Scalar
import ScopeGrant.Toml.Table
import ScopeGrant.Toml.Value
import ScopeGrant.Toml.Document
import ScopeGrant.Evaluation
import ScopeGrant.Proofs.Except
import ScopeGrant.Proofs.Scope.Chain
import ScopeGrant.Proofs.Scope.Rebuild
import ScopeGrant.Proofs.Scope.Sibling
import ScopeGrant.Proofs.Scope.Containment
import ScopeGrant.Proofs.Scope.Grammar
import ScopeGrant.Proofs.Scope.Token
import ScopeGrant.Proofs.Scope.Reading
import ScopeGrant.Proofs.Scope.Acceptance
import ScopeGrant.Proofs.Scope.Builder
import ScopeGrant.Proofs.Scope.Reachable
import ScopeGrant.Proofs.Scope.Printer
import ScopeGrant.Proofs.Scope.Equality
import ScopeGrant.Proofs.Scope.RoundTrip
import ScopeGrant.Proofs.Consent.Coherent
import ScopeGrant.Proofs.Consent.Tree
import ScopeGrant.Proofs.Consent.Matching
import ScopeGrant.Proofs.Consent.Building
import ScopeGrant.Proofs.Consent.Forest
import ScopeGrant.Proofs.Consent.Order
import ScopeGrant.Proofs.Consent.Union
import ScopeGrant.Proofs.Consent.Entailment
import ScopeGrant.Proofs.Consent.Brackets
import ScopeGrant.Proofs.Scope.Occurrence
import ScopeGrant.Proofs.Scope.Canonical
import ScopeGrant.Proofs.Scope.Covering
import ScopeGrant.Proofs.Consent.Among
import ScopeGrant.Proofs.Consent.Renaming
import ScopeGrant.Proofs.Scope.Depth
import ScopeGrant.Proofs.Scope.Limit
import ScopeGrant.Proofs.Scope.Bracket
import ScopeGrant.Proofs.Scope.Nesting
import ScopeGrant.Proofs.Scope.Joining
import ScopeGrant.Proofs.Scope.Cache
import ScopeGrant.Proofs.Text.ByteOrder
import ScopeGrant.Proofs.Text.Digit
import ScopeGrant.Proofs.Json.Literal
import ScopeGrant.Proofs.Json.Token
import ScopeGrant.Proofs.Json.Decoder
import ScopeGrant.Proofs.Scope.Json
import ScopeGrant.Proofs.Consent.Json
import ScopeGrant.Proofs.Settings.Check
import ScopeGrant.Proofs.Requirement.Demand
import ScopeGrant.Proofs.Requirement.Decision
import ScopeGrant.Proofs.Requirement.Collect
import ScopeGrant.Proofs.Scope.Gathering
import ScopeGrant.Proofs.Scope.Stepwise
import ScopeGrant.Proofs.Scope.Supremum
import ScopeGrant.Proofs.Scope.CycleSearch
import ScopeGrant.Proofs.Scope.Surroundings
import ScopeGrant.Proofs.Scope.Balance
import ScopeGrant.Proofs.Scope.Refusal
import ScopeGrant.Proofs.Scope.FaultPlace
import ScopeGrant.Proofs.Scope.Completion
import ScopeGrant.Proofs.Consent.Edges
import ScopeGrant.Proofs.Consent.Walk
import ScopeGrant.Proofs.Consent.Agreement
import ScopeGrant.Proofs.Consent.Mirror
import ScopeGrant.Proofs.Requirement.History
import ScopeGrant.Proofs.Checked.Operation
import ScopeGrant.Proofs.Checked.Token
import ScopeGrant.Proofs.Checked.Scope
import ScopeGrant.Proofs.Checked.Building
import ScopeGrant.Proofs.Checked.Consent
import ScopeGrant.Proofs.Checked.Core
import ScopeGrant.Proofs.Scope.Cut
import ScopeGrant.Proofs.Scope.Between
import ScopeGrant.Proofs.Scope.Levels
import ScopeGrant.Proofs.Settings.Override
import ScopeGrant.Proofs.Scope.Recursion
import ScopeGrant.Proofs.Scope.Value
