import ScopeGrant.Text.Blank

/-!
# Tokens of a scope expression

A scope expression is read as a row of tokens: stars, brackets, words and blank stretches. Every
character belongs to exactly one token, so the texts of the tokens put together are the expression.
Words and blank stretches are as long as they can be, and no other token is longer than one
character.

`tokensFrom` is the plain recursion that says what the tokens are; `Token.scan` collects the same
row from the left on a growing list (`scanLoop_eq`).
-/

namespace ScopeGrant

open Text

/-- The characters with a meaning of their own in a scope expression, which no scope value holds. -/
def isReserved (c : Char) : Bool :=
  isBlank c || c == '*' || c == '[' || c == ']'

/-- The five kinds of token. -/
inductive TokenKind where
  /-- The optional marker, a star. -/
  | optional
  /-- A scope value. -/
  | word
  /-- An opening bracket. -/
  | opening
  /-- A closing bracket. -/
  | closing
  /-- One or more blank characters. -/
  | space
deriving Repr, DecidableEq, Inhabited

namespace TokenKind

/-- The kind of the token that begins with a character. -/
def ofChar (c : Char) : TokenKind :=
  if c == '*' then optional
  else if c == '[' then opening
  else if c == ']' then closing
  else if isBlank c then space
  else word

/-- Whether a token of this kind goes on with a character. -/
def goesOn : TokenKind → Char → Bool
  | word, c => !isReserved c
  | space, c => isBlank c
  | _, _ => false

end TokenKind

/-- A token of a scope expression. -/
structure Token where
  /-- What kind of token it is. -/
  kind : TokenKind
  /-- Its characters. -/
  text : String
  /-- The byte offset of its first character. -/
  position : Nat
deriving Repr, DecidableEq, Inhabited

namespace Token

/-- The first token of the text `c :: rest`, which stands at `position`. -/
def first (position : Nat) (c : Char) (rest : List Char) : Token :=
  let kind := TokenKind.ofChar c
  ⟨kind, String.ofList (c :: rest.takeWhile kind.goesOn), position⟩

/-- What follows the first token of the text `c :: rest`. -/
def afterFirst (c : Char) (rest : List Char) : List Char :=
  rest.dropWhile (TokenKind.ofChar c).goesOn

/-- The byte offset just behind the token. -/
def stop (token : Token) : Nat :=
  token.position + token.text.utf8ByteSize

theorem length_afterFirst_le (c : Char) (rest : List Char) :
    (afterFirst c rest).length ≤ rest.length :=
  (List.dropWhile_sublist _).length_le

/-- The tokens of a text whose first character stands at `position`. -/
def tokensFrom (position : Nat) : List Char → List Token
  | [] => []
  | c :: rest =>
    first position c rest :: tokensFrom (first position c rest).stop (afterFirst c rest)
termination_by text => text.length
decreasing_by exact Nat.lt_succ_of_le (length_afterFirst_le c rest)

/-- The tokens in `found`, newest first, followed by those of the text at `position`. -/
def scanLoop (found : List Token) (position : Nat) : List Char → List Token
  | [] => found.reverse
  | c :: rest =>
    scanLoop (first position c rest :: found) (first position c rest).stop (afterFirst c rest)
termination_by text => text.length
decreasing_by exact Nat.lt_succ_of_le (length_afterFirst_le c rest)

/-- The tokens of a scope expression, in order. -/
def scan (input : String) : List Token :=
  scanLoop [] 0 input.toList

theorem scanLoop_eq (found : List Token) (position : Nat) (text : List Char) :
    scanLoop found position text = found.reverse ++ tokensFrom position text := by
  fun_induction scanLoop found position text with
  | case1 => simp [tokensFrom]
  | case2 found position c rest ih => rw [ih, tokensFrom]; simp

theorem scan_eq (input : String) : scan input = tokensFrom 0 input.toList := by
  simp [scan, scanLoop_eq]

end Token

end ScopeGrant
