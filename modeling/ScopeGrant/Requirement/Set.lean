import ScopeGrant.Requirement.Demand
import ScopeGrant.Scope.Printer

/-!
# Requirement sets

Before a flow begins, the scopes that each resource server needs are collected, and the consents of
an identity are checked against them. What is not met is reported scope by scope, so that consent
can be asked for just that.
-/

namespace ScopeGrant

open Std (ExtTreeMap)

/-- The required scopes of each resource server. -/
structure Requirements where
  /-- The required scopes by the name of the server. -/
  servers : ExtTreeMap String (List Scope) := ∅

/-- A required scope that is not met. -/
structure Unmet where
  /-- The resource server that needs it. -/
  server : String
  /-- The scope. -/
  scope : Scope

/-- The unmet requirement in words. -/
def Unmet.display (u : Unmet) : String :=
  u.server ++ ": " ++ u.scope.render

/-- What a check of a requirement set comes to. -/
inductive Decision where
  /-- Every required scope is met. -/
  | satisfied
  /-- Consent must be asked for these scopes. -/
  | unmet (missing : List Unmet)

namespace Decision

/-- Whether every required scope is met. -/
def isSatisfied : Decision → Bool
  | satisfied => true
  | unmet _ => false

/-- The required scopes that are not met. -/
def missing : Decision → List Unmet
  | satisfied => []
  | unmet missing => missing

/-- The decision for a list of unmet requirements. -/
def ofMissing : List Unmet → Decision
  | [] => satisfied
  | u :: rest => unmet (u :: rest)

end Decision

namespace Requirements

/-- Append scopes to those of a server; a server without an entry gets one. -/
def append (q : Requirements) (server : String) (scopes : List Scope) : Requirements :=
  ⟨q.servers.insert server (q.servers.getD server [] ++ scopes)⟩

/-- What changes a requirement set in place. It can fail, and what it has changed by then stays
changed. -/
abbrev Change := EStateM ScopeError Requirements

/-- Append what a caller requires of a server. -/
def insert (server : String) (demand : Demand) : Change Unit := do
  let scopes ← MonadExcept.ofExcept demand.scopes
  modify fun q => q.append server scopes

/-- Append the scopes of an expression to those of a server. -/
def addScope (server scope : String) : Change Unit :=
  insert server (.text scope)

/-- The required scopes of a server. -/
def get? (q : Requirements) (server : String) : Option (List Scope) :=
  q.servers[server]?

/-- The servers with their required scopes, in the order of their names. -/
def toList (q : Requirements) : List (String × List Scope) :=
  q.servers.toList

/-- The names of the servers, in order. -/
def serverNames (q : Requirements) : List String :=
  q.servers.keys

/-- The number of servers. -/
def size (q : Requirements) : Nat :=
  q.servers.size

/-- Whether there are no servers. -/
def isEmpty (q : Requirements) : Bool :=
  q.servers.isEmpty

/-- Check every required scope of every server against a forest. -/
def check (q : Requirements) (f : ConsentForest) : Decision :=
  .ofMissing <| q.toList.flatMap fun (server, scopes) =>
    (scopes.filter fun scope => !f.meets scope).map fun scope => ⟨server, scope⟩

/-- Whether the required scopes of a server are met; `none` for a server without an entry. -/
def checkServer (q : Requirements) (server : String) (f : ConsentForest) : Option Bool :=
  (q.get? server).map f.meetsAll

end Requirements

end ScopeGrant
