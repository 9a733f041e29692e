import ScopeGrant.Consent.Record
import Std.Data.ExtTreeMap
import Std.Data.ExtTreeSet

/-!
# Consent trees

A tree is rebuilt from the flat list of its consents. A consent is a child of the one that stands
before it in its dependency path, and its path must be the path of that parent with its own
identifier added. So the edges lead from the root to each consent along its path.
-/

namespace ScopeGrant

open Std (ExtTreeMap ExtTreeSet)

/-- The consents below one root. -/
structure ConsentTree where
  /-- The consent at the root. -/
  root : Consent
  /-- The children of each consent. -/
  edges : ExtTreeMap ConsentId (ExtTreeSet ConsentId)
  /-- The consents by identifier. -/
  nodes : ExtTreeMap ConsentId Consent
  /-- The length of the longest dependency path. -/
  maxDepth : Nat

namespace ConsentTree

/-- Add a consent to those of the tree below `rootId`, once its path is checked. -/
def enrol (rootId : ConsentId) (nodes : ExtTreeMap ConsentId Consent) (c : Consent) :
    Except ForestError (ExtTreeMap ConsentId Consent) := do
  c.validate
  if c.rootId? ≠ some rootId then throw (.invalidPath c.id (.wrongRoot rootId))
  if nodes.contains c.id then throw (.duplicate c.id)
  return nodes.insert c.id c

/-- Add the edge that leads to a consent, once its parent is found. -/
def link (nodes : ExtTreeMap ConsentId Consent)
    (edges : ExtTreeMap ConsentId (ExtTreeSet ConsentId)) (c : Consent) :
    Except ForestError (ExtTreeMap ConsentId (ExtTreeSet ConsentId)) :=
  match c.parentId? with
  | none => .ok edges
  | some parentId =>
    match nodes[parentId]? with
    | none => .error (.missingParent c.id parentId)
    | some parent => do
      c.checkExtends parent
      return edges.insert parentId ((edges.getD parentId ∅).insert c.id)

/-- The tree below `rootId` with exactly the given consents. -/
def ofList (rootId : ConsentId) (consents : List Consent) : Except ForestError ConsentTree := do
  let nodes ← consents.foldlM (enrol rootId) ∅
  match nodes[rootId]? with
  | none => throw (.missingParent ((consents.head?.map Consent.id).getD rootId) rootId)
  | some root =>
    let edges ← consents.foldlM (link nodes) (.ofList (consents.map fun c => (c.id, ∅)))
    return { root, edges, nodes, maxDepth := (consents.map Consent.depth).foldl max 0 }

/-- The identifier of the root. -/
def rootId (t : ConsentTree) : ConsentId :=
  t.root.id

/-- The consent with an identifier. -/
def get? (t : ConsentTree) (id : ConsentId) : Option Consent :=
  t.nodes[id]?

/-- The children of a consent in the order of their identifiers. -/
def children (t : ConsentTree) (id : ConsentId) : List Consent :=
  (t.edges.getD id ∅).toList.filterMap t.get?

/-- The number of consents. -/
def size (t : ConsentTree) : Nat :=
  t.nodes.size

/-- Whether the tree has no consents; one that was built always has. -/
def isEmpty (t : ConsentTree) : Bool :=
  t.nodes.isEmpty

/-- Where a walk through a tree stands. -/
structure Walk where
  /-- The consents still to be visited, the next one first, each with its depth. -/
  pending : List (Consent × Nat)
  /-- The consents that have been visited, newest first, each with its depth. -/
  visited : List (Consent × Nat) := []

namespace Walk

/-- Visit the next consent. Its children come next, in the order of their identifiers. A walk with
nothing pending has ended. -/
def step (t : ConsentTree) (w : Walk) : Walk :=
  match w.pending with
  | [] => w
  | (c, depth) :: pending =>
    { pending := (t.children c.id).map (·, depth + 1) ++ pending
      visited := (c, depth) :: w.visited }

/-- Go on for so many visits. -/
def run (t : ConsentTree) : (visits : Nat) → Walk → Walk
  | 0, w => w
  | visits + 1, w => run t visits (w.step t)

end Walk

/-- The walk before it visits the root. -/
def startWalk (t : ConsentTree) : Walk :=
  { pending := [(t.root, 1)] }

/-- The consents of the tree from the root down, each with its depth. A walk visits each consent
once, so it has ended after as many visits as there are consents. -/
def walk (t : ConsentTree) : List (Consent × Nat) :=
  (t.startWalk.run t t.size).visited.reverse

/-- The tree in words: a line for each consent, indented by its depth. -/
def display (t : ConsentTree) : String :=
  String.join <| t.walk.map fun (c, depth) =>
    String.ofList (List.replicate (2 * (depth - 1)) ' ') ++ c.display ++ "\n"

end ConsentTree

end ScopeGrant
