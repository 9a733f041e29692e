import ScopeGrant.Consent.Matching

/-!
# Consent forests

All consents of one identity form a forest. A required scope is met by a forest when it is met by
one of its trees; consents of different trees never count together.
-/

namespace ScopeGrant

open Std (ExtTreeMap)

/-- The consent trees of one identity, in the order of their roots' identifiers. -/
structure ConsentForest where
  /-- The trees. -/
  trees : List ConsentTree := []

namespace ConsentForest

/-- Add a consent to those of the forest, once its path is checked. -/
def enrol (byId : ExtTreeMap ConsentId Consent) (c : Consent) :
    Except ForestError (ExtTreeMap ConsentId Consent) := do
  c.validate
  if byId.contains c.id then throw (.duplicate c.id)
  return byId.insert c.id c

/-- Check that the parent of a consent is there and that the paths fit together. -/
def checkParent (byId : ExtTreeMap ConsentId Consent) (c : Consent) : Except ForestError Unit :=
  match c.parentId? with
  | none => .ok ()
  | some parentId =>
    match byId[parentId]? with
    | none => .error (.missingParent c.id parentId)
    | some parent => c.checkExtends parent

/-- Put a consent to the others with the same root. -/
def addToGroup (groups : ExtTreeMap ConsentId (List Consent)) (c : Consent) :
    ExtTreeMap ConsentId (List Consent) :=
  match c.rootId? with
  | none => groups
  | some root => groups.insert root (groups.getD root [] ++ [c])

/-- Move the consent with an identifier from the index to the others with the same root. -/
def moveToGroup : ExtTreeMap ConsentId Consent × ExtTreeMap ConsentId (List Consent) → ConsentId →
    ExtTreeMap ConsentId Consent × ExtTreeMap ConsentId (List Consent)
  | (byId, groups), id =>
    match byId[id]? with
    | none => (byId, groups)
    | some c => (byId.erase id, addToGroup groups c)

/-- The consents of an index by the root of their tree, each group in the given order. -/
def groupByRoot (byId : ExtTreeMap ConsentId Consent) (order : List ConsentId) :
    ExtTreeMap ConsentId (List Consent) :=
  (order.foldl moveToGroup (byId, ∅)).2

/-- The forest of a list of consents. It is refused as a whole if one path is not in order, an
identifier is repeated or a parent is missing. -/
def ofList (consents : List Consent) : Except ForestError ConsentForest := do
  let byId ← consents.foldlM enrol ∅
  consents.forM (checkParent byId)
  let trees ← (groupByRoot byId (consents.map Consent.id)).toList.mapM fun (root, members) =>
    ConsentTree.ofList root members
  return { trees }

/-- The consent with an identifier, in whichever tree it is. -/
def get? (f : ConsentForest) (id : ConsentId) : Option Consent :=
  f.trees.findSome? (·.get? id)

/-- Search the trees from the place `low` up to the place `high` for the one below a root. The trees
are in the order of their roots, so each look at the middle one leaves at most half of them. -/
def searchTree (trees : Array ConsentTree) (root : ConsentId) (low high : Nat)
    (hhigh : high ≤ trees.size) : Option ConsentTree :=
  if h : low < high then
    let middle := low + (high - low) / 2
    have hmiddle : middle < trees.size := by omega
    match compare trees[middle].rootId root with
    | .eq => some trees[middle]
    | .lt => searchTree trees root (middle + 1) high hhigh
    | .gt => searchTree trees root low middle (by omega)
  else none
termination_by high - low

/-- The tree below the root with an identifier. -/
def tree? (f : ConsentForest) (root : ConsentId) : Option ConsentTree :=
  let trees := f.trees.toArray
  searchTree trees root 0 trees.size (Nat.le_refl _)

/-- The number of trees. -/
def size (f : ConsentForest) : Nat :=
  f.trees.length

/-- Whether there are no trees. -/
def isEmpty (f : ConsentForest) : Bool :=
  f.trees.isEmpty

/-- The number of consents in all trees. -/
def consentCount (f : ConsentForest) : Nat :=
  f.trees.foldl (fun n t => n + t.size) 0

/-- Whether some tree meets a required scope. -/
def meets (f : ConsentForest) (required : Scope) : Bool :=
  f.trees.any (·.meets required)

/-- Whether each of the required scopes is met by some tree. -/
def meetsAll (f : ConsentForest) (required : List Scope) : Bool :=
  required.all f.meets

/-- The forest in words, tree by tree. -/
def display (f : ConsentForest) : String :=
  String.join (f.trees.map ConsentTree.display)

end ConsentForest

end ScopeGrant
