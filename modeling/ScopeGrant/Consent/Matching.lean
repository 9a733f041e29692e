import ScopeGrant.Consent.Tree
import ScopeGrant.Scope.Basic

/-!
# Matching requirements against a consent tree

A consent meets a required scope when it carries the value of the scope and each dependency of the
scope is met by one of its children. A tree meets the scope when its root does, so a requirement
such as `a[b[c]]` asks for consents to `a`, `b` and `c` that lie below one another in this order,
from the root on. Optional markers play no part.

The required scopes are laid out in an array, each with the places of its dependencies, which come
after it. They are settled from the last place to the first, so what a scope needs is always settled
before the scope itself.
-/

namespace ScopeGrant

open Std (ExtTreeMap)

/-- A required scope in a layout. -/
structure Need where
  /-- The value that a consent must carry. -/
  value : String
  /-- The places of its dependencies. -/
  dependencies : Array Nat
deriving Repr, DecidableEq, Inhabited

namespace Need

/-- Note at the place of the owner, if there is one, that a dependency stands at `place`. -/
def note (place : Nat) (owner : Option Nat) (order : Array Need) : Array Need :=
  match owner with
  | none => order
  | some i => order.modify i fun need => { need with dependencies := need.dependencies.push place }

/-- Lay out the pending scopes, each with the place of the scope that depends on it. The next one
goes to the end of the layout, and its dependencies are taken before the others, the last one
first. -/
def layoutLoop (order : Array Need) : List (Scope × Option Nat) → Array Need
  | [] => order
  | (s, owner) :: pending =>
    let place := order.size
    layoutLoop ((note place owner order).push ⟨s.value, #[]⟩)
      (s.dependencies.reverse.map (·, some place) ++ pending)
termination_by pending => Scope.sizeList (pending.map Prod.fst)
decreasing_by
  simp [Function.comp_def, s.size_eq]

/-- The scopes of a tree, each before what it depends on. -/
def layout (s : Scope) : Array Need :=
  layoutLoop #[] [(s, none)]

end Need

namespace ConsentTree

/-- The consents of a tree by the scope value that they carry. -/
def carriers (t : ConsentTree) : ExtTreeMap String (List ConsentId) :=
  t.nodes.toList.foldl
    (fun found (id, c) => found.insert c.scopeValue (id :: found.getD c.scopeValue [])) ∅

/-- Settle the scope at one place: the consents that meet it carry its value and have, for each of
its dependencies, a child among the consents that meet this one. -/
def settleNeed (t : ConsentTree) (carriers : ExtTreeMap String (List ConsentId))
    (order : Array Need) (met : Array (List ConsentId)) (place : Nat) : Array (List ConsentId) :=
  match order[place]? with
  | none => met
  | some need =>
    met.setIfInBounds place <| (carriers.getD need.value []).filter fun id =>
      need.dependencies.all fun below =>
        (t.children id).any fun child => (met.getD below []).contains child.id

/-- Settle the scopes at the first `places` places of a layout, from the last to the first. -/
def settleLoop (t : ConsentTree) (carriers : ExtTreeMap String (List ConsentId))
    (order : Array Need) : (places : Nat) → Array (List ConsentId) → Array (List ConsentId)
  | 0, met => met
  | place + 1, met => t.settleLoop carriers order place (t.settleNeed carriers order met place)

/-- The consents of a tree that meet a required scope and the scopes below it, place by place. -/
def matching (t : ConsentTree) (required : Scope) : Array (List ConsentId) :=
  let order := Need.layout required
  t.settleLoop t.carriers order order.size (.replicate order.size [])

/-- Whether the root of a tree meets a required scope. -/
def meets (t : ConsentTree) (required : Scope) : Bool :=
  t.root.scopeValue == required.value && (t.matching required)[0]?.any (·.contains t.rootId)

end ConsentTree

end ScopeGrant
