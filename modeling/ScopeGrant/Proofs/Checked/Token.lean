import ScopeGrant.Proofs.Checked.Operation
import ScopeGrant.Proofs.Scope.Token
import ScopeGrant.Scope.Parser

/-!
# Tokens are cut out of the text at the places of characters

The tokens of a text may be found by their byte offsets. Each begins where the one before it ends,
and the text is cut there, which is refused inside a character. Where a token begins, the text has
been read up to a character, so what is cut off begins with this character (`nextChecked_append`);
by induction on what is left, no cut of a scan is ever refused, and the scan comes to an end.
-/

namespace ScopeGrant

open Text

namespace Token

/-- The offset behind the longest stretch from `start` on of characters that satisfy `p`. -/
def skipChecked (input : String) (start : Nat) (p : Char → Bool) : Option Nat := do
  let rest ← sliceFrom? input start
  return start + (String.ofList (rest.toList.takeWhile p)).utf8ByteSize

/-- The offset behind the token that begins with `c` at `start`. -/
def stopChecked (input : String) (start : Nat) (c : Char) : Option Nat :=
  match TokenKind.ofChar c with
  | .optional | .opening | .closing => some (start + 1)
  | .space => skipChecked input start isBlank
  | .word => skipChecked input start fun c => !isReserved c

/-- The token that begins at `start`, with the offset behind it. At the end there is none. -/
def nextChecked (input : String) (start : Nat) : Option (Option (Token × Nat)) := do
  let rest ← sliceFrom? input start
  match rest.toList with
  | [] => return none
  | c :: _ =>
    let stop ← stopChecked input start c
    let text ← slice? input start stop
    return some (⟨.ofChar c, text, start⟩, stop)

/-- The tokens from `start` on. A scan that does not get ahead is refused. -/
def scanFromChecked (input : String) (start : Nat) : Option (List Token) :=
  match nextChecked input start with
  | none => none
  | some none => some []
  | some (some (token, stop)) =>
    if start < stop ∧ stop ≤ input.utf8ByteSize then
      (scanFromChecked input stop).map (token :: ·)
    else none
termination_by input.utf8ByteSize - start

/-- The tokens of a scope expression, cut out of it. -/
def scanChecked (input : String) : Option (List Token) :=
  scanFromChecked input 0

/-- A stretch that begins with the character at `before` takes that character and goes on. -/
theorem skipChecked_append (before : String) {c : Char} (rest : List Char) {p : Char → Bool}
    (hp : p c = true) :
    skipChecked (before ++ String.ofList (c :: rest)) before.utf8ByteSize p =
      some (before.utf8ByteSize + (String.ofList (c :: rest.takeWhile p)).utf8ByteSize) := by
  rw [skipChecked, sliceFrom?_append]
  show some (before.utf8ByteSize +
    (String.ofList ((String.ofList (c :: rest)).toList.takeWhile p)).utf8ByteSize) = _
  rw [String.toList_ofList, List.takeWhile_cons_of_pos hp]

/-- A token that is one mark takes one byte. -/
theorem stop_of_mark {token : Token} {x : Char} (hx : x.utf8Size = 1)
    (htext : token.text.toList = [x]) : token.stop = token.position + 1 := by
  rw [stop, ← String.ofList_toList (s := token.text), htext, ← String.singleton_eq_ofList,
    String.utf8ByteSize_singleton, hx]

/-- A token ends where the stretch that is cut out for it ends. -/
theorem stopChecked_append (before : String) (c : Char) (rest : List Char) :
    stopChecked (before ++ String.ofList (c :: rest)) before.utf8ByteSize c =
      some (first before.utf8ByteSize c rest).stop := by
  have hfits := first_fits before.utf8ByteSize c rest
  have htext : (first before.utf8ByteSize c rest).text.toList =
      c :: rest.takeWhile (TokenKind.ofChar c).goesOn := String.toList_ofList
  have hhead : c ∈ (first before.utf8ByteSize c rest).text.toList :=
    htext ▸ List.mem_cons_self ..
  unfold Fits at hfits
  rw [show (first before.utf8ByteSize c rest).kind = TokenKind.ofChar c from rfl] at hfits
  unfold stopChecked
  cases hkind : TokenKind.ofChar c with
  | optional =>
    rw [hkind] at hfits
    exact congrArg some (stop_of_mark (x := '*') (by decide) hfits).symm
  | opening =>
    rw [hkind] at hfits
    exact congrArg some (stop_of_mark (x := '[') (by decide) hfits).symm
  | closing =>
    rw [hkind] at hfits
    exact congrArg some (stop_of_mark (x := ']') (by decide) hfits).symm
  | space =>
    rw [hkind] at hfits
    refine (skipChecked_append before rest (hfits.2 c hhead)).trans ?_
    rw [stop, first, hkind]
    rfl
  | word =>
    rw [hkind] at hfits
    refine (skipChecked_append before rest (by rw [hfits.2 c hhead]; rfl)).trans ?_
    rw [stop, first, hkind]
    rfl

/-- Behind what has been read up to a character, the token that is cut out is the first one. -/
theorem nextChecked_append (before : String) (c : Char) (rest : List Char) :
    nextChecked (before ++ String.ofList (c :: rest)) before.utf8ByteSize =
      some (some (first before.utf8ByteSize c rest, (first before.utf8ByteSize c rest).stop)) := by
  have hsplit : String.ofList (c :: rest) =
      (first before.utf8ByteSize c rest).text ++ String.ofList (afterFirst c rest) := by
    rw [← toList_first_append before.utf8ByteSize c rest, String.ofList_append,
      String.ofList_toList]
  have htext : slice? (before ++ String.ofList (c :: rest)) before.utf8ByteSize
      (first before.utf8ByteSize c rest).stop = some (first before.utf8ByteSize c rest).text := by
    rw [hsplit]
    exact slice?_append ..
  simp only [nextChecked, sliceFrom?_append, Option.bind_eq_bind, Option.bind_some,
    String.toList_ofList, stopChecked_append, htext]
  rfl

theorem nextChecked_end (input : String) : nextChecked input input.utf8ByteSize = some none := by
  have hrest := sliceFrom?_append input ""
  rw [String.append_empty] at hrest
  rw [nextChecked, hrest]
  rfl

/-- A scan gets ahead, since the token that comes first is not empty. -/
theorem lt_stop_first (position : Nat) (c : Char) (rest : List Char) :
    position < (first position c rest).stop := by
  refine Nat.lt_add_of_pos_right (Nat.pos_of_ne_zero fun hempty => ?_)
  rw [String.utf8ByteSize_eq_zero_iff] at hempty
  have htext : (first position c rest).text.toList = _ := String.toList_ofList
  rw [hempty] at htext
  cases htext

/-- A scan behind what has been read cuts out the tokens of what is left. -/
theorem scanFromChecked_append (before : String) (text : List Char) :
    scanFromChecked (before ++ String.ofList text) before.utf8ByteSize =
      some (tokensFrom before.utf8ByteSize text) := by
  generalize hposition : before.utf8ByteSize = position
  induction position, text using tokensFrom.induct generalizing before with
  | case1 position =>
    subst hposition
    rw [scanFromChecked, String.ofList_nil, String.append_empty, nextChecked_end, tokensFrom]
  | case2 position c rest ih =>
    subst hposition
    have hsplit : before ++ String.ofList (c :: rest) =
        before ++ (first before.utf8ByteSize c rest).text ++ String.ofList (afterFirst c rest) := by
      rw [String.append_assoc, ← String.ofList_toList (s := (first _ c rest).text),
        ← String.ofList_append, toList_first_append]
    have hstop : (before ++ (first before.utf8ByteSize c rest).text).utf8ByteSize =
        (first before.utf8ByteSize c rest).stop := String.utf8ByteSize_append
    have hbound : (first before.utf8ByteSize c rest).stop ≤
        (before ++ String.ofList (c :: rest)).utf8ByteSize := by
      rw [hsplit, String.utf8ByteSize_append, hstop]
      exact Nat.le_add_right ..
    have hrest := ih _ hstop
    rw [← hsplit] at hrest
    rw [scanFromChecked, nextChecked_append]
    show (if _ then _ else _) = _
    rw [if_pos ⟨lt_stop_first .., hbound⟩, hrest, tokensFrom]
    rfl

/-- No cut of a scan is refused, and the tokens that are cut out are those of the text. -/
theorem scanChecked_eq (input : String) : scanChecked input = some (scan input) := by
  have hrun := scanFromChecked_append "" input.toList
  rw [String.ofList_toList, String.empty_append] at hrun
  rw [scan_eq]
  exact hrun

end Token

namespace Parser

/-- The reading of an expression whose tokens are cut out of it. -/
def parseChecked (parser : Parser) (input : String) : Option (Except ScopeError (List Scope)) := do
  let tokens ← Token.scanChecked input
  return tokens.foldlM (State.step parser input) {} >>= State.finish input

theorem parseChecked_eq (parser : Parser) (input : String) :
    parser.parseChecked input = some (parser.parse input) := by
  rw [parseChecked, Token.scanChecked_eq]
  rfl

end Parser

end ScopeGrant
