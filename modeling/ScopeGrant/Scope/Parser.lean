import ScopeGrant.Scope.Error
import ScopeGrant.Scope.Sibling
import ScopeGrant.Scope.Token
import Std.Data.ExtTreeSet

/-!
# Reading scope expressions

The grammar of scope expressions, where blank text separates terms and is allowed inside brackets
but not before them:

* an expression is a row of terms;
* a term is a value, with a star directly before it if it is optional, and with brackets directly
  after it if it has dependencies;
* brackets hold one or more terms.

No term may name, anywhere inside its brackets, its own value again. Repeated values directly
inside one pair of brackets are merged; repeated values at the top level are kept.

The expression is read once from left to right, token by token. `State` holds the brackets that are
open and what stands before the next token; `State.step` takes one token in.
-/

namespace ScopeGrant

open Std (ExtTreeSet)

/-- A reader of scope expressions. -/
structure Parser where
  /-- How many brackets may be open at once; `none` stands for any number. -/
  maxDepth : Option Nat := none
deriving Repr, DecidableEq, Inhabited

namespace Parser

/-- What stands directly before the next token. -/
inductive Before where
  /-- Nothing: the next token is the first. -/
  | start
  /-- A blank stretch. -/
  | space
  /-- A star. -/
  | optional
  /-- A scope value. -/
  | word
  /-- An opening bracket. -/
  | opening
  /-- A closing bracket. -/
  | closing
deriving Repr, DecidableEq, Inhabited

/-- What a token leaves standing before the next one. -/
def Before.ofKind : TokenKind → Before
  | .optional => optional
  | .word => word
  | .opening => opening
  | .closing => closing
  | .space => space

/-- A pair of brackets that is not closed yet. -/
structure Block where
  /-- The scope whose dependencies the brackets hold. -/
  owner : Scope
  /-- The byte offset of the opening bracket. -/
  openedAt : Nat
  /-- The scopes read so far inside the brackets, newest first. -/
  scopes : List Scope := []

/-- Where the reading stands between two tokens. -/
structure State where
  /-- The top-level scopes read so far, newest first. -/
  top : List Scope := []
  /-- The open brackets, innermost first. -/
  blocks : List Block := []
  /-- The values of the scopes that own the open brackets. -/
  owners : ExtTreeSet String := ∅
  /-- What stands before the next token. -/
  before : Before := .start
  /-- What stood before the last blank stretch. -/
  beforeSpace : Before := .start
  /-- The byte offset of the last star. -/
  optionalAt : Nat := 0

namespace State

/-- The scopes of the innermost open brackets, or those of the top level, newest first. -/
def current (st : State) : List Scope :=
  match st.blocks with
  | [] => st.top
  | block :: _ => block.scopes

/-- Replace the scopes of the innermost open brackets, or those of the top level. -/
def setCurrent (st : State) (scopes : List Scope) : State :=
  match st.blocks with
  | [] => { st with top := scopes }
  | block :: outer => { st with blocks := { block with scopes } :: outer }

/-- Add a scope to the innermost open brackets, or to the top level. -/
def push (st : State) (s : Scope) : State :=
  st.setCurrent (s :: st.current)

/-- The values that own the open brackets, outermost first. -/
def ownerChain (st : State) : List String :=
  (st.blocks.map (·.owner.value)).reverse

/-- Take in a star at `position`. -/
def star (input : String) (st : State) (position : Nat) : Except ScopeError State :=
  match st.before with
  | .word => .error (.parse .danglingOptional position input)
  | .closing => .error (.parse .missingSeparator position input)
  | .optional => .error (.parse .optionalNotAdjacent st.optionalAt input)
  | .start | .space | .opening => .ok { st with optionalAt := position }

/-- Take in a scope value at `position`. -/
def word (input : String) (st : State) (value : String) (position : Nat) :
    Except ScopeError State :=
  if st.before = .closing then .error (.parse .missingSeparator position input)
  else if st.owners.contains value then .error (.cycle value (st.ownerChain ++ [value]))
  else .ok (st.push (.leaf value (st.before == .optional)))

/-- What is wrong with an opening bracket at `position`, judged by what stands before it. -/
def openingFault? (st : State) (position : Nat) : Option (ParseErrorKind × Nat) :=
  match st.before with
  | .word => none
  | .optional => some (.optionalNotAdjacent, st.optionalAt)
  | .space =>
    if st.beforeSpace = .word ∨ st.beforeSpace = .closing then some (.spaceBeforeBracket, position)
    else some (.unattachedBracket, position)
  | .start | .opening | .closing => some (.unattachedBracket, position)

/-- Whether no more brackets may be opened. -/
def full (parser : Parser) (st : State) : Bool :=
  match parser.maxDepth with
  | none => false
  | some limit => limit ≤ st.blocks.length

/-- Take in an opening bracket at `position`: the scope before it becomes the owner of a new
block. -/
def opening (parser : Parser) (input : String) (st : State) (position : Nat) :
    Except ScopeError State :=
  match st.openingFault? position with
  | some (kind, place) => .error (.parse kind place input)
  | none =>
    if st.full parser then .error (.parse .tooDeep position input)
    else
      match st.current with
      | [] => .error (.parse .unattachedBracket position input)
      | owner :: others =>
        let left := st.setCurrent others
        .ok { left with
          blocks := { owner, openedAt := position } :: left.blocks
          owners := left.owners.insert owner.value }

/-- Take in a closing bracket at `position`: the scopes of the innermost block become the
dependencies of its owner. -/
def closing (input : String) (st : State) (position : Nat) : Except ScopeError State :=
  if st.before = .optional then .error (.parse .danglingOptional st.optionalAt input)
  else
    match st.blocks with
    | [] => .error (.parse .unopenedBracket position input)
    | block :: outer =>
      if block.scopes.isEmpty then .error (.parse .emptyBrackets block.openedAt input)
      else
        let owner := block.owner.setDependencies (Scope.normalize block.scopes.reverse)
        .ok (push { st with blocks := outer, owners := st.owners.erase owner.value } owner)

/-- Take in a blank stretch. -/
def space (input : String) (st : State) : Except ScopeError State :=
  if st.before = .optional then .error (.parse .optionalNotAdjacent st.optionalAt input)
  else .ok { st with beforeSpace := st.before }

/-- Take in one token. -/
def step (parser : Parser) (input : String) (st : State) (token : Token) :
    Except ScopeError State := do
  let next ←
    match token.kind with
    | .optional => st.star input token.position
    | .word => st.word input token.text token.position
    | .opening => st.opening parser input token.position
    | .closing => st.closing input token.position
    | .space => st.space input
  return { next with before := .ofKind token.kind }

/-- The top-level scopes, once every token is taken in. -/
def finish (input : String) (st : State) : Except ScopeError (List Scope) :=
  if st.before = .optional then .error (.parse .danglingOptional st.optionalAt input)
  else
    match st.blocks with
    | block :: _ => .error (.parse .unclosedBracket block.openedAt input)
    | [] => .ok st.top.reverse

end State

/-- The top-level scopes of an expression; a blank text holds none. -/
def parse (parser : Parser) (input : String) : Except ScopeError (List Scope) := do
  let st ← (Token.scan input).foldlM (State.step parser input) {}
  st.finish input

/-- The scope of an expression that must hold exactly one. -/
def parseOne (parser : Parser) (input : String) : Except ScopeError Scope :=
  if Text.isBlankText input then .error (.usage .blank)
  else
    match parser.parse input with
    | .error e => .error e
    | .ok [s] => .ok s
    | .ok scopes => .error (.usage (.notSingle input scopes.length))

end Parser

namespace Scope

/-- The top-level scopes of an expression, nested to any depth. -/
def parse (input : String) : Except ScopeError (List Scope) :=
  ({} : Parser).parse input

/-- The scope of an expression that must hold exactly one, nested to any depth. -/
def parseOne (input : String) : Except ScopeError Scope :=
  ({} : Parser).parseOne input

end Scope

end ScopeGrant
