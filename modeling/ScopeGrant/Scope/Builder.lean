import ScopeGrant.Scope.Error
import ScopeGrant.Scope.Sibling
import ScopeGrant.Scope.Token

/-!
# Building scopes step by step

Scopes can be made from values and joined, as well as read from text. Joining refuses a dependency
whose tree names the value of the scope that would own it, and it merges a dependency whose value is
already there.
-/

namespace ScopeGrant.Scope

/-- The byte offset of the first reserved character of a text that begins at `position`. -/
def reservedAt? (position : Nat) : List Char → Option Nat
  | [] => none
  | c :: rest => if isReserved c then some position else reservedAt? (position + c.utf8Size) rest

/-- What is wrong with a text as a scope value: it is empty, or it holds a reserved character. -/
def valueFault? (value : String) : Option ScopeError :=
  if value.isEmpty then some (.parse .invalidToken 0 value)
  else (reservedAt? 0 value.toList).map fun position => .parse .invalidToken position value

/-- The required scope of a value, without dependencies. -/
def new (value : String) : Except ScopeError Scope :=
  match valueFault? value with
  | some e => .error e
  | none => .ok (leaf value false)

/-- The optional scope of a value, without dependencies. -/
def newOptional (value : String) : Except ScopeError Scope := do
  return (← new value).withOptional true

/-- Search the pending trees, each with the number of scopes above it, for the first scope that
carries `target`: a scope comes before its dependencies, and of these the last one first. They share
one `chain`, the values down to the scope that was visited last, which is cut back to the scopes
above the next one. -/
def chainLoop (target : String) (chain : List String) : List (Scope × Nat) → Option (List String)
  | [] => none
  | (s, above) :: pending =>
    let chain := chain.take above ++ [s.value]
    if s.value == target then some chain
    else chainLoop target chain (s.dependencies.reverse.map (·, above + 1) ++ pending)
termination_by pending => sizeList (pending.map Prod.fst)
decreasing_by
  simp [Function.comp_def, size_eq s]

/-- The values from the scope down to the first scope of its tree that carries `target`. -/
def chainTo? (s : Scope) (target : String) : Option (List String) :=
  chainLoop target [] [(s, 0)]

/-- The cycle that would arise if `s` came to depend on `dependency`. -/
def cycleFault? (s dependency : Scope) : Option ScopeError :=
  (dependency.chainTo? s.value).map fun chain => .cycle s.value (s.value :: chain)

/-- What changes a scope in place. It can fail, and what it has changed by then stays changed. -/
abbrev Change := EStateM ScopeError Scope

/-- Fail if the scope would come to depend on its own value. -/
def refuseCycle (dependency : Scope) : Change Unit := do
  match (← get).cycleFault? dependency with
  | some e => throw e
  | none => return ()

/-- Take in a dependency. One whose value is already there is merged into the existing one. -/
def takeIn (dependency : Scope) : Change Unit :=
  modify fun s =>
    s.setDependencies (settle (absorbInto dependency (s.dependencies.map Merged.ofScope)))

/-- Join one more dependency to the scope. -/
def joinDependency (dependency : Scope) : Change Unit := do
  refuseCycle dependency
  takeIn dependency

/-- The scope with one more dependency. -/
def addDependency (s dependency : Scope) : Except ScopeError Scope :=
  match (joinDependency dependency).run s with
  | .ok _ joined => .ok joined
  | .error e _ => .error e

/-- The scope with several more dependencies, or none of them if one would close a cycle. -/
def addDependencies (s : Scope) (dependencies : List Scope) : Except ScopeError Scope :=
  match dependencies.findSome? s.cycleFault? with
  | some e => .error e
  | none => .ok (s.setDependencies (normalize (s.dependencies ++ dependencies)))

end ScopeGrant.Scope
