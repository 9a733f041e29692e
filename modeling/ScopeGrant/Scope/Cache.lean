import ScopeGrant.Numeric.Decimal
import ScopeGrant.Scope.Parser
import Std.Data.ExtTreeMap

/-!
# A cache of read expressions

Checks tend to read the same few expressions again and again. A cache keeps what each expression
was read as. An expression that is refused is not kept, so it is read, and refused, every time.
-/

namespace ScopeGrant

open Std (ExtTreeMap)

/-- The expressions that a parser has read.

The counts are natural numbers, where a program counts in words of 64 bits that start again at zero.
Each call adds one to at most one of the two counts, so the counts, and also their sum, are at most
the number of calls since the last clearing. While this number is less than `2 ^ 64` no word starts
again at zero, and both ways of counting come to the same. -/
structure ScopeCache where
  /-- The parser. -/
  parser : Parser := {}
  /-- The scopes of each expression that was read without fault. -/
  entries : ExtTreeMap String (List Scope) := ∅
  /-- How often an expression was found. -/
  hits : Nat := 0
  /-- How often an expression was not found. -/
  misses : Nat := 0

/-- How a cache has been used since it was last cleared. The counts are those of the cache, and are
natural numbers for the same reason. -/
structure CacheStats where
  /-- How often an expression was found. -/
  hits : Nat
  /-- How often an expression was not found. -/
  misses : Nat
  /-- How many expressions are kept. -/
  entries : Nat
deriving Repr, DecidableEq, Inhabited

/-- The share of hits; that of an unused cache is zero. -/
def CacheStats.hitRate (stats : CacheStats) : Binary64 :=
  let total := stats.hits + stats.misses
  if total = 0 then .ofRatio false 0 1 else .ofRatio false stats.hits total

namespace ScopeCache

/-- The top-level scopes of an expression, and the cache afterwards. -/
def parse (cache : ScopeCache) (input : String) : Except ScopeError (List Scope) × ScopeCache :=
  match cache.entries[input]? with
  | some scopes => (.ok scopes, { cache with hits := cache.hits + 1 })
  | none =>
    let missed := { cache with misses := cache.misses + 1 }
    match cache.parser.parse input with
    | .error e => (.error e, missed)
    | .ok scopes => (.ok scopes, { missed with entries := cache.entries.insert input scopes })

/-- Forget all expressions and all counts. -/
def clear (cache : ScopeCache) : ScopeCache :=
  { parser := cache.parser }

/-- The number of expressions that are kept. -/
def size (cache : ScopeCache) : Nat :=
  cache.entries.size

/-- Whether no expression is kept. -/
def isEmpty (cache : ScopeCache) : Bool :=
  cache.entries.isEmpty

/-- How the cache has been used. -/
def stats (cache : ScopeCache) : CacheStats :=
  ⟨cache.hits, cache.misses, cache.size⟩

end ScopeCache

end ScopeGrant
