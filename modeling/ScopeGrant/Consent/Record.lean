/-!
# Consent records

A consent grants one scope to one client on behalf of an identity. Consents hang together in trees:
each record carries its dependency path, the identifiers from the root of its tree down to and
including its own.
-/

namespace ScopeGrant

/-- The identifier of a consent, ordered as a number. -/
abbrev ConsentId := UInt64

/-- What can be wrong with the dependency path of a consent. -/
inductive PathFault where
  /-- It names no consent. -/
  | empty
  /-- It does not end with the consent itself. -/
  | wrongEnd
  /-- It names a consent twice. -/
  | repeats
  /-- It does not begin at the root of the tree. -/
  | wrongRoot (root : ConsentId)
  /-- Without its end it is not the path of the consent before it. -/
  | notExtending (parent : ConsentId)
deriving Repr, DecidableEq, Inhabited

/-- The wording of a path fault. -/
def PathFault.message : PathFault → String
  | empty => "path is empty"
  | wrongEnd => "path does not end with the consent's own id"
  | repeats => "path repeats a consent id"
  | wrongRoot root => "path does not start at root " ++ toString root
  | notExtending parent => "path does not extend the path of parent " ++ toString parent

/-- What can be wrong with a list of consents. -/
inductive ForestError where
  /-- The consent names a parent that is not in the list. -/
  | missingParent (consent parent : ConsentId)
  /-- The dependency path of the consent is not in order. -/
  | invalidPath (consent : ConsentId) (fault : PathFault)
  /-- Two records carry the same identifier. -/
  | duplicate (consent : ConsentId)
deriving Repr, DecidableEq, Inhabited

/-- The wording of a forest error. -/
def ForestError.message : ForestError → String
  | missingParent consent parent =>
    "Consent " ++ toString consent ++ " references parent " ++ toString parent ++
      ", which is not in the consent list"
  | invalidPath consent fault =>
    "Consent " ++ toString consent ++ " has an invalid dependency path: " ++ fault.message
  | duplicate consent => "Consent " ++ toString consent ++ " appears more than once"

/-- One granted authorisation. -/
structure Consent where
  /-- Its identifier. -/
  id : ConsentId
  /-- The client it is granted to. -/
  client : String
  /-- The value of the scope it covers. -/
  scopeValue : String
  /-- The identifier that the service has for the scope. -/
  scopeId : Option String := none
  /-- The identity on whose behalf it is granted. -/
  effectiveIdentity : Option String := none
  /-- The identifiers from the root of its tree down to its own. -/
  path : List ConsentId
  /-- Its state of approval. -/
  status : Option String := none
  /-- Whether it is revoked only together with the consents below it. -/
  atomicallyRevocable : Bool := false
  /-- Whether it covers refreshing. -/
  allowsRefresh : Bool := false
  /-- Whether it was granted without asking. -/
  autoApproved : Bool := false
  /-- When it was granted. -/
  created : Option String := none
  /-- When it was last changed. -/
  updated : Option String := none
  /-- When it was last used. -/
  lastUsed : Option String := none
deriving Repr, DecidableEq, Inhabited

namespace Consent

/-- What is wrong with the path of a consent, judged by the consent alone. -/
def pathFault? (c : Consent) : Option PathFault :=
  match c.path.getLast? with
  | none => some .empty
  | some last =>
    if last ≠ c.id then some .wrongEnd
    else if c.path.Nodup then none
    else some .repeats

/-- Check that the path is not empty, ends with the consent itself and names no consent twice. -/
def validate (c : Consent) : Except ForestError Unit :=
  match c.pathFault? with
  | some fault => .error (.invalidPath c.id fault)
  | none => .ok ()

/-- The root of the tree that the consent belongs to. -/
def rootId? (c : Consent) : Option ConsentId :=
  c.path.head?

/-- The consent directly above this one; a root has none. -/
def parentId? (c : Consent) : Option ConsentId :=
  c.path.dropLast.getLast?

/-- Whether the consent is the root of its tree. -/
def isRoot (c : Consent) : Bool :=
  c.path.length == 1

/-- The number of consents from the root down to this one. -/
def depth (c : Consent) : Nat :=
  c.path.length

/-- Check that the path is that of `parent` with one identifier more. -/
def checkExtends (c parent : Consent) : Except ForestError Unit :=
  if parent.path = c.path.dropLast then .ok ()
  else .error (.invalidPath c.id (.notExtending parent.id))

/-- The consent in words. -/
def display (c : Consent) : String :=
  c.scopeValue ++ " (id=" ++ toString c.id ++ ", client=" ++ c.client ++ ")"

end Consent

end ScopeGrant
