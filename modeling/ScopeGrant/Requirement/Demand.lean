import ScopeGrant.Consent.Forest
import ScopeGrant.Scope.Cache
import ScopeGrant.Scope.Rebuild

/-!
# Demands

A caller may state what it requires as text, as one scope or as a list of scopes. Scopes may be
handed over or lent; of scopes that are lent a copy is made. Each form stands for a list of required
scopes, and a forest answers it through that list.
-/

namespace ScopeGrant

/-- What a caller requires. -/
inductive Demand where
  /-- The top-level scopes of an expression. -/
  | text (input : String)
  /-- One scope. -/
  | one (scope : Scope)
  /-- Several scopes. -/
  | many (scopes : List Scope)
  /-- One scope that stays with the caller. -/
  | lentOne (scope : Scope)
  /-- Several scopes that stay with the caller. -/
  | lentMany (scopes : List Scope)

/-- The required scopes. -/
def Demand.scopes : Demand → Except ScopeError (List Scope)
  | text input => Scope.parse input
  | one scope => .ok [scope]
  | many scopes => .ok scopes
  | lentOne scope => .ok [scope.copy]
  | lentMany scopes => .ok (scopes.map Scope.copy)

namespace ConsentForest

/-- Whether all that a caller requires is met. -/
def meetsDemand (f : ConsentForest) (demand : Demand) : Except ScopeError Bool := do
  return f.meetsAll (← demand.scopes)

/-- Whether all scopes of an expression, read through a cache, are met, and the cache afterwards. -/
def meetsCached (f : ConsentForest) (cache : ScopeCache) (input : String) :
    Except ScopeError Bool × ScopeCache :=
  let (scopes, cache) := cache.parse input
  (scopes.map f.meetsAll, cache)

end ConsentForest

end ScopeGrant
