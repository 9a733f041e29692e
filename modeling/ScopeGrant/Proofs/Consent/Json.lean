import ScopeGrant.Consent.Json
import ScopeGrant.Proofs.Json.Decoder

/-!
# Consents read back from JSON

Writing puts all thirteen fields of a record in the order of the shape, so reading fills the draft
field by field until it is the draft of the record itself.
-/

namespace ScopeGrant

open Json

namespace ConsentDraft

/-- The draft that has all fields of a consent. -/
def ofConsent (c : Consent) : ConsentDraft where
  id := some c.id
  client := some c.client
  scopeValue := some c.scopeValue
  scopeId := some c.scopeId
  effectiveIdentity := some c.effectiveIdentity
  path := some c.path
  status := some c.status
  atomicallyRevocable := some c.atomicallyRevocable
  allowsRefresh := some c.allowsRefresh
  autoApproved := some c.autoApproved
  created := some c.created
  updated := some c.updated
  lastUsed := some c.lastUsed

theorem consent?_ofConsent (c : Consent) : (ofConsent c).consent? = some c := rfl

end ConsentDraft

namespace Consent

theorem denotes_path (path : List ConsentId) :
    Denotes (array unsigned) (writeArray (path.map toString)) path := by
  simpa using denotes_writeArray_map fun id (_ : id ∈ path) => denotes_unsigned id

section

-- The decoder of a field is found by reducing the shape down to `Decoder.map` and no further.
attribute [local irreducible] Decoder.map

/-- A record is read as the draft that has all its fields. -/
theorem denotes_draft (c : Consent) :
    Denotes ConsentDraft.shape.decode c.toJson (ConsentDraft.ofConsent c) := by
  refine denotes_writeObject ?_ rfl
  refine .put rfl (denotes_unsigned c.id) ?_
  refine .put rfl (denotes_writeText c.client) ?_
  refine .put rfl (denotes_writeText c.scopeValue) ?_
  refine .put rfl (denotes_textOrNull c.scopeId) ?_
  refine .put rfl (denotes_textOrNull c.effectiveIdentity) ?_
  refine .put rfl (denotes_path c.path) ?_
  refine .put rfl (denotes_textOrNull c.status) ?_
  refine .put rfl (denotes_writeBool c.atomicallyRevocable) ?_
  refine .put rfl (denotes_writeBool c.allowsRefresh) ?_
  refine .put rfl (denotes_writeBool c.autoApproved) ?_
  refine .put rfl (denotes_textOrNull c.created) ?_
  refine .put rfl (denotes_textOrNull c.updated) ?_
  refine .put rfl (denotes_textOrNull c.lastUsed) ?_
  exact .nil

end

theorem denotes_toJson (c : Consent) : Denotes decoder c.toJson c :=
  (denotes_draft c).refine (by rw [ConsentDraft.consent?_ofConsent])

theorem denotes_listToJson (consents : List Consent) :
    Denotes listShape.decode (listToJson consents) (some consents) := by
  have hrecords : Denotes (array decoder) (writeArray (consents.map toJson)) consents := by
    simpa using denotes_writeArray_map fun c (_ : c ∈ consents) => denotes_toJson c
  exact denotes_writeObject (.put rfl hrecords .nil) rfl

/-- Any list of consents is read back from what is written for it. -/
theorem listOfJson_listToJson (consents : List Consent) :
    listOfJson (listToJson consents) = .ok consents := by
  rw [listOfJson, (denotes_listToJson consents).decodeText_eq, ok_bind]
  rfl

end Consent

end ScopeGrant
