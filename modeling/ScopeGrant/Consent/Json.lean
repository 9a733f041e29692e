import ScopeGrant.Consent.Record
import ScopeGrant.Json.Decoder
import ScopeGrant.Json.Writer

/-!
# Consent lists in JSON

A consent service answers with an object whose field `consents` holds the records. A record must
name its identifier, its client, its scope and its dependency path; everything else may be left out,
and fields that are not known are ignored. Writing puts all thirteen fields in a fixed order.
-/

namespace ScopeGrant

/-- The fields of a consent that have been read so far. -/
structure ConsentDraft where
  /-- The identifier. -/
  id : Option ConsentId := none
  /-- The client. -/
  client : Option String := none
  /-- The value of the scope. -/
  scopeValue : Option String := none
  /-- The identifier that the service has for the scope. -/
  scopeId : Option (Option String) := none
  /-- The identity. -/
  effectiveIdentity : Option (Option String) := none
  /-- The dependency path. -/
  path : Option (List ConsentId) := none
  /-- The state of approval. -/
  status : Option (Option String) := none
  /-- Whether it is revoked only together with the consents below it. -/
  atomicallyRevocable : Option Bool := none
  /-- Whether it covers refreshing. -/
  allowsRefresh : Option Bool := none
  /-- Whether it was granted without asking. -/
  autoApproved : Option Bool := none
  /-- When it was granted. -/
  created : Option (Option String) := none
  /-- When it was last changed. -/
  updated : Option (Option String) := none
  /-- When it was last used. -/
  lastUsed : Option (Option String) := none
deriving Repr, DecidableEq, Inhabited

namespace ConsentDraft

open Json (ObjectField Shape text boolean unsigned orNull array)

/-- The consent of a draft, with fields that are absent left empty; `none` if one of the fields is
absent that a consent must have. -/
def consent? (d : ConsentDraft) : Option Consent := do
  return {
    id := ← d.id
    client := ← d.client
    scopeValue := ← d.scopeValue
    scopeId := d.scopeId.join
    effectiveIdentity := d.effectiveIdentity.join
    path := ← d.path
    status := d.status.join
    atomicallyRevocable := d.atomicallyRevocable.getD false
    allowsRefresh := d.allowsRefresh.getD false
    autoApproved := d.autoApproved.getD false
    created := d.created.join
    updated := d.updated.join
    lastUsed := d.lastUsed.join }

/-- The fields of a record, in order. -/
def fields : List (ObjectField ConsentDraft) :=
  [⟨"id", true, (·.id.isSome), fun d => unsigned.map fun v => { d with id := some v }⟩,
   ⟨"client", true, (·.client.isSome), fun d => text.map fun v => { d with client := some v }⟩,
   ⟨"scope_name", true, (·.scopeValue.isSome),
    fun d => text.map fun v => { d with scopeValue := some v }⟩,
   ⟨"scope", false, (·.scopeId.isSome),
    fun d => (orNull text).map fun v => { d with scopeId := some v }⟩,
   ⟨"effective_identity", false, (·.effectiveIdentity.isSome),
    fun d => (orNull text).map fun v => { d with effectiveIdentity := some v }⟩,
   ⟨"dependency_path", true, (·.path.isSome),
    fun d => (array unsigned).map fun v => { d with path := some v }⟩,
   ⟨"status", false, (·.status.isSome),
    fun d => (orNull text).map fun v => { d with status := some v }⟩,
   ⟨"atomically_revocable", false, (·.atomicallyRevocable.isSome),
    fun d => boolean.map fun v => { d with atomicallyRevocable := some v }⟩,
   ⟨"allows_refresh", false, (·.allowsRefresh.isSome),
    fun d => boolean.map fun v => { d with allowsRefresh := some v }⟩,
   ⟨"auto_approved", false, (·.autoApproved.isSome),
    fun d => boolean.map fun v => { d with autoApproved := some v }⟩,
   ⟨"created", false, (·.created.isSome),
    fun d => (orNull text).map fun v => { d with created := some v }⟩,
   ⟨"updated", false, (·.updated.isSome),
    fun d => (orNull text).map fun v => { d with updated := some v }⟩,
   ⟨"last_used", false, (·.lastUsed.isSome),
    fun d => (orNull text).map fun v => { d with lastUsed := some v }⟩]

/-- The shape of a record. -/
def shape : Shape ConsentDraft where
  expected := "struct ConsentRecord"
  expectedArray := "struct ConsentRecord with 13 elements"
  fields := fields
  blank := {}

end ConsentDraft

namespace Consent

/-- Take a record. A draft of its shape has all fields that a consent must have. -/
def decoder : Json.Decoder Consent :=
  ConsentDraft.shape.decode.refine fun draft =>
    match draft.consent? with
    | some c => .ok c
    | none => .error .malformed

/-- Write a record. -/
def toJson (c : Consent) : String :=
  let textOrNull := Json.writeOption Json.writeText
  Json.writeObject [
    ("id", toString c.id),
    ("client", Json.writeText c.client),
    ("scope_name", Json.writeText c.scopeValue),
    ("scope", textOrNull c.scopeId),
    ("effective_identity", textOrNull c.effectiveIdentity),
    ("dependency_path", Json.writeArray (c.path.map toString)),
    ("status", textOrNull c.status),
    ("atomically_revocable", Json.writeBool c.atomicallyRevocable),
    ("allows_refresh", Json.writeBool c.allowsRefresh),
    ("auto_approved", Json.writeBool c.autoApproved),
    ("created", textOrNull c.created),
    ("updated", textOrNull c.updated),
    ("last_used", textOrNull c.lastUsed)]

/-- The shape of the answer of a consent service. -/
def listShape : Json.Shape (Option (List Consent)) where
  expected := "struct ConsentList"
  expectedArray := "struct ConsentList with 1 element"
  fields := [⟨"consents", false, Option.isSome, fun _ => (Json.array decoder).map some⟩]
  blank := none

/-- Read the answer of a consent service; one without records holds none. -/
def listOfJson (body : String) : Except Json.Fault (List Consent) := do
  return (← Json.decodeText listShape.decode body).getD []

/-- Write the answer of a consent service. -/
def listToJson (consents : List Consent) : String :=
  Json.writeObject [("consents", Json.writeArray (consents.map toJson))]

end Consent

end ScopeGrant
