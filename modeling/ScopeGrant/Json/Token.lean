import ScopeGrant.Json.Fault
import ScopeGrant.Numeric.Binary64
import ScopeGrant.Numeric.Word
import ScopeGrant.Text.Digit

/-!
# Tokens of a JSON text

A JSON text is read as a row of tokens. Some faults lie inside a token, and they count only when a
reader comes to that token, so they are kept in it. What is a fault may also depend on whether the
value is wanted: a text that is skipped may hold half of a surrogate pair, and a number that is
skipped may be of any size. A token therefore holds both what it says and whether it may be skipped.
The row ends behind the first token that cannot even be skipped.
-/

namespace ScopeGrant.Json

open Text (digitValue digitsValue hexValue? takeSign length_takeSign)

/-- The three words of JSON. -/
inductive Literal where
  /-- The word `null`. -/
  | null
  /-- The word `true` or `false`. -/
  | boolean (value : Bool)
deriving Repr, DecidableEq, Inhabited

/-- What a number says. -/
inductive Number where
  /-- It is an integer of at most 64 bits, with a sign or without. -/
  | integer (value : Int)
  /-- It is anything else. -/
  | fraction
deriving Repr, DecidableEq, Inhabited

/-- A token of a JSON text. -/
inductive Token where
  /-- An opening square bracket. -/
  | beginArray
  /-- A closing square bracket. -/
  | endArray
  /-- An opening brace. -/
  | beginObject
  /-- A closing brace. -/
  | endObject
  /-- A colon. -/
  | colon
  /-- A comma. -/
  | comma
  /-- A word that begins like one of the three. -/
  | literal (kept : Except Fault Literal)
  /-- A number. -/
  | number (kept : Except Fault Number) (skipped : Except Fault Unit)
  /-- A text. -/
  | text (kept : Except Fault String) (skipped : Except Fault Unit)
  /-- A character that begins no token. -/
  | stray

/-- The four blank characters of JSON. -/
def isBlank (c : Char) : Bool :=
  c == ' ' || c == '\t' || c == '\n' || c == '\r'

/-! ## Words -/

/-- What follows a word in a text, if the text begins with the word. -/
def afterWord : (word text : List Char) → Except Fault (List Char)
  | [], text => .ok text
  | _ :: _, [] => .error .truncated
  | w :: word, c :: text => if w == c then afterWord word text else .error .malformed

theorem length_of_afterWord {word text rest : List Char} (h : afterWord word text = .ok rest) :
    rest.length ≤ text.length := by
  induction word generalizing text with
  | nil => simp_all [afterWord]
  | cons w word ih =>
    cases text with
    | nil => simp [afterWord] at h
    | cons c text =>
      simp only [afterWord] at h
      split at h
      · exact Nat.le_succ_of_le (ih h)
      · simp at h

/-! ## Numbers -/

/-- Append digits to a significand as long as it stays below `2 ^ 64`; the other digits are left. -/
def absorbDigits (significand : Nat) : List Char → Nat × List Char
  | [] => (significand, [])
  | c :: rest =>
    let next := significand * 10 + digitValue c
    if next ≤ maxUnsigned then absorbDigits next rest else (significand, c :: rest)

/-- The exponent of a number. -/
structure ExponentPart where
  /-- Whether it has a minus sign. -/
  negative : Bool
  /-- Its digits. -/
  digits : List Char

/-- The parts of a number as it is written. -/
structure NumberText where
  /-- Whether it has a minus sign. -/
  negative : Bool
  /-- The digits before the point. -/
  whole : List Char
  /-- The digits behind the point, if there is one. -/
  fraction : Option (List Char) := none
  /-- The exponent, if there is one. -/
  exponent : Option ExponentPart := none

/-- Whether a number is too great to be held. The digits that fit a significand below `2 ^ 64` are
multiplied by a power of ten, both rounded, so the bound is that of this product. -/
def NumberText.overflows (n : NumberText) : Bool :=
  let (significand, wholeLeft) := absorbDigits 0 n.whole
  let fraction := n.fraction.getD []
  let (significand, fractionLeft) := absorbDigits significand fraction
  let shift : Int := (wholeLeft.length : Int) - ((fraction.length : Int) - fractionLeft.length)
  let exponent : Int :=
    match n.exponent with
    | none => shift
    | some e =>
      let value : Int := digitsValue e.digits
      if e.negative then shift - value else shift + value
  significand ≠ 0 && 0 ≤ exponent &&
    (308 < exponent ||
      (Binary64.scaleBy (.ofRatio false significand 1) (.ofDecimal false 1 exponent)).isInfinite)

/-- What a number says, unless it is too great. -/
def NumberText.kept (n : NumberText) : Except Fault Number :=
  let value := digitsValue n.whole
  let isInteger := n.fraction.isNone && n.exponent.isNone
  if isInteger && !n.negative && value ≤ maxUnsigned then .ok (.integer value)
  else if isInteger && n.negative && 0 < value && minSigned ≤ -value then .ok (.integer (-value))
  else if n.overflows then .error .malformed
  else .ok .fraction

/-- A token whose reading broke off: it can be neither kept nor skipped. -/
def brokenNumber (kept : Fault) : Token × List Char :=
  (.number (.error kept) (.error .malformed), [])

/-- The fault where a digit must stand but `rest` follows. -/
def noDigit (rest : List Char) : Fault :=
  if rest.isEmpty then .truncated else .malformed

/-- The token of a number whose parts are read, and what follows it. -/
def wholeNumber (n : NumberText) (rest : List Char) : Token × List Char :=
  (.number n.kept (.ok ()), rest)

/-- Read the exponent of a number behind its mark. -/
def lexExponent (n : NumberText) (text : List Char) : Token × List Char :=
  let (negative, text) := takeSign text
  let digits := text.takeWhile Char.isDigit
  if digits.isEmpty then brokenNumber (noDigit text)
  else wholeNumber { n with exponent := some ⟨negative, digits⟩ } (text.dropWhile Char.isDigit)

/-- Read the exponent of a number, if its mark follows. -/
def lexAfterDigits (n : NumberText) : List Char → Token × List Char
  | 'e' :: rest => lexExponent n rest
  | 'E' :: rest => lexExponent n rest
  | rest => wholeNumber n rest

/-- Read the fraction and the exponent of a number, if they follow. -/
def lexAfterWhole (n : NumberText) : List Char → Token × List Char
  | '.' :: rest =>
    let digits := rest.takeWhile Char.isDigit
    if digits.isEmpty then brokenNumber (noDigit rest)
    else lexAfterDigits { n with fraction := some digits } (rest.dropWhile Char.isDigit)
  | rest => lexAfterDigits n rest

/-- Read a number behind its sign. A zero stands alone before the point. -/
def lexNumber (negative : Bool) (text : List Char) : Token × List Char :=
  let digits := text.takeWhile Char.isDigit
  if digits.isEmpty then brokenNumber (noDigit text)
  else if digits.head? = some '0' ∧ 1 < digits.length then brokenNumber .malformed
  else lexAfterWhole { negative, whole := digits } (text.dropWhile Char.isDigit)

theorem length_dropWhile_le {α : Type} (p : α → Bool) (l : List α) :
    (l.dropWhile p).length ≤ l.length :=
  (List.dropWhile_sublist p).length_le

theorem length_lexExponent (n : NumberText) (text : List Char) :
    (lexExponent n text).2.length ≤ text.length := by
  unfold lexExponent
  simp only
  split
  · simp [brokenNumber]
  · exact Nat.le_trans (length_dropWhile_le _ _) (length_takeSign text)

theorem length_lexAfterDigits (n : NumberText) (text : List Char) :
    (lexAfterDigits n text).2.length ≤ text.length := by
  unfold lexAfterDigits
  split
  · exact Nat.le_succ_of_le (length_lexExponent _ _)
  · exact Nat.le_succ_of_le (length_lexExponent _ _)
  · simp [wholeNumber]

theorem length_lexAfterWhole (n : NumberText) (text : List Char) :
    (lexAfterWhole n text).2.length ≤ text.length := by
  unfold lexAfterWhole
  split
  · simp only
    split
    · simp [brokenNumber]
    · exact Nat.le_succ_of_le
        (Nat.le_trans (length_lexAfterDigits _ _) (length_dropWhile_le _ _))
  · exact length_lexAfterDigits _ _

theorem length_lexNumber_le (negative : Bool) (text : List Char) :
    (lexNumber negative text).2.length ≤ text.length := by
  unfold lexNumber
  simp only
  split
  · simp [brokenNumber]
  · split
    · simp [brokenNumber]
    · exact Nat.le_trans (length_lexAfterWhole _ _) (length_dropWhile_le _ _)

theorem length_lexNumber_lt {c : Char} (hc : c.isDigit = true) (text : List Char) :
    (lexNumber false (c :: text)).2.length < (c :: text).length := by
  unfold lexNumber
  have hdrop : ((c :: text).dropWhile Char.isDigit).length ≤ text.length := by
    rw [List.dropWhile_cons_of_pos hc]
    exact length_dropWhile_le _ _
  simp only
  split
  · simp [brokenNumber]
  · split
    · simp [brokenNumber]
    · exact Nat.lt_succ_of_le (Nat.le_trans (length_lexAfterWhole _ _) hdrop)

/-! ## Texts -/

/-- The value of four hexadecimal digits. -/
def hex4? (a b c d : Char) : Option Nat := do
  return (((← hexValue? a) * 16 + (← hexValue? b)) * 16 + (← hexValue? c)) * 16 + (← hexValue? d)

/-- Whether a number is the first half of a surrogate pair. -/
def isHighSurrogate (n : Nat) : Bool := 0xD800 ≤ n && n ≤ 0xDBFF

/-- Whether a number is the second half of a surrogate pair. -/
def isLowSurrogate (n : Nat) : Bool := 0xDC00 ≤ n && n ≤ 0xDFFF

/-- The character of a surrogate pair. -/
def pairedChar (high low : Nat) : Char :=
  Char.ofNat ((high - 0xD800) * 0x400 + (low - 0xDC00) + 0x10000)

/-- The character that a one-letter escape stands for. -/
def escapedChar? (c : Char) : Option Char :=
  if c == '"' then some '"'
  else if c == '\\' then some '\\'
  else if c == '/' then some '/'
  else if c == 'b' then some '\x08'
  else if c == 'f' then some '\x0c'
  else if c == 'n' then some '\n'
  else if c == 'r' then some '\r'
  else if c == 't' then some '\t'
  else none

/-- The second half of a surrogate pair at the front of a text, and what follows it. -/
def lowAtFront? : List Char → Option (Nat × List Char)
  | '\\' :: 'u' :: a :: b :: c :: d :: rest =>
    match hex4? a b c d with
    | some n => if isLowSurrogate n then some (n, rest) else none
    | none => none
  | _ => none

theorem length_of_lowAtFront {text rest : List Char} {n : Nat}
    (h : lowAtFront? text = some (n, rest)) : rest.length < text.length := by
  unfold lowAtFront? at h
  split at h
  · split at h
    · split at h
      · simp only [Option.some.injEq, Prod.mk.injEq] at h
        simp [← h.2]; omega
      · simp at h
    · simp at h
  · simp at h

/-- Whether a text ends before it could be seen whether an escape of four digits stands at its
front. -/
def endsInEscape : List Char → Bool
  | [] => true
  | '\\' :: [] => true
  | '\\' :: 'u' :: rest => rest.length < 4
  | _ => false

/-- The fault of an escape with fewer than four characters behind its mark: the text ends too early
if it holds fewer than four bytes more. -/
def shortEscape (rest : List Char) : Fault :=
  if rest.foldl (fun n c => n + c.utf8Size) 0 < 4 then .truncated else .malformed

/-- Read a text behind its opening quote. `found` holds its characters so far, newest first;
`spoiled` says that half of a surrogate pair has stood alone, so that the text can only be skipped.
The answer is that mark, the characters and what follows the closing quote. -/
def lexText (spoiled : Bool) (found : List Char) :
    List Char → Bool × Except Fault (List Char × List Char)
  | [] => (spoiled, .error .truncated)
  | '"' :: rest => (spoiled, .ok (found.reverse, rest))
  | '\\' :: 'u' :: a :: b :: c :: d :: rest =>
    match hex4? a b c d with
    | none => (spoiled, .error .malformed)
    | some n =>
      if isLowSurrogate n then lexText true found rest
      else if isHighSurrogate n then
        match _h : lowAtFront? rest with
        | some (m, rest') => lexText spoiled (pairedChar n m :: found) rest'
        | none => lexText (spoiled || !endsInEscape rest) found rest
      else lexText spoiled (Char.ofNat n :: found) rest
  | '\\' :: 'u' :: rest => (spoiled, .error (shortEscape rest))
  | '\\' :: [] => (spoiled, .error .truncated)
  | '\\' :: c :: rest =>
    match escapedChar? c with
    | some e => lexText spoiled (e :: found) rest
    | none => (spoiled, .error .malformed)
  | c :: rest =>
    if c < ' ' then (spoiled, .error .malformed) else lexText spoiled (c :: found) rest
termination_by text => text.length
decreasing_by
  · simp only [List.length_cons]; omega
  · have := length_of_lowAtFront _h
    simp only [List.length_cons]; omega
  · simp only [List.length_cons]; omega
  · simp only [List.length_cons]; omega
  · simp only [List.length_cons]; omega
  · simp

theorem length_of_lexText {spoiled : Bool} {found text chars rest : List Char}
    (h : (lexText spoiled found text).2 = .ok (chars, rest)) : rest.length < text.length := by
  fun_induction lexText spoiled found text with
  | case5 _ _ _ _ _ _ _ _ _ _ _ _ _ hlow ih =>
    have := length_of_lowAtFront hlow
    have := ih h
    simp only [List.length_cons]; omega
  | _ => simp_all <;> omega

/-- The token of a text behind its opening quote, and what follows it. -/
def textToken (text : List Char) : Token × List Char :=
  match lexText false [] text with
  | (spoiled, .error fault) =>
    (.text (.error (if spoiled then .malformed else fault)) (.error fault), [])
  | (spoiled, .ok (chars, rest)) =>
    (.text (if spoiled then .error .malformed else .ok (String.ofList chars)) (.ok ()), rest)

theorem length_textToken_le (text : List Char) : (textToken text).2.length ≤ text.length := by
  unfold textToken
  split
  · simp
  · rename_i h
    exact Nat.le_of_lt (length_of_lexText (by rw [h]))

/-- The token of a word behind its first letter, and what follows it. -/
def wordToken (literal : Literal) (word text : List Char) : Token × List Char :=
  match afterWord word text with
  | .error fault => (.literal (.error fault), [])
  | .ok rest => (.literal (.ok literal), rest)

theorem length_wordToken_le (literal : Literal) (word text : List Char) :
    (wordToken literal word text).2.length ≤ text.length := by
  unfold wordToken
  split
  · simp
  · rename_i h
    exact length_of_afterWord h

/-! ## Rows of tokens -/

/-- The first token of a text that begins with a character that is not blank, and what follows it.
Nothing follows a token that cannot be skipped. -/
def lexToken (c : Char) (rest : List Char) : Token × List Char :=
  if c == '[' then (.beginArray, rest)
  else if c == ']' then (.endArray, rest)
  else if c == '\x7b' then (.beginObject, rest)
  else if c == '\x7d' then (.endObject, rest)
  else if c == ':' then (.colon, rest)
  else if c == ',' then (.comma, rest)
  else if c == '"' then textToken rest
  else if c == 'n' then wordToken .null ['u', 'l', 'l'] rest
  else if c == 't' then wordToken (.boolean true) ['r', 'u', 'e'] rest
  else if c == 'f' then wordToken (.boolean false) ['a', 'l', 's', 'e'] rest
  else if c == '-' then lexNumber true rest
  else if c.isDigit then lexNumber false (c :: rest)
  else (.stray, [])

theorem length_ite_le {p : Prop} [Decidable p] {x y : Token × List Char} {n : Nat}
    (hx : p → x.2.length ≤ n) (hy : ¬p → y.2.length ≤ n) :
    (if p then x else y).2.length ≤ n := by
  split
  · exact hx (by assumption)
  · exact hy (by assumption)

theorem length_lexToken (c : Char) (rest : List Char) :
    (lexToken c rest).2.length ≤ rest.length := by
  unfold lexToken
  refine length_ite_le (fun _ => Nat.le_refl _) fun _ => ?_
  refine length_ite_le (fun _ => Nat.le_refl _) fun _ => ?_
  refine length_ite_le (fun _ => Nat.le_refl _) fun _ => ?_
  refine length_ite_le (fun _ => Nat.le_refl _) fun _ => ?_
  refine length_ite_le (fun _ => Nat.le_refl _) fun _ => ?_
  refine length_ite_le (fun _ => Nat.le_refl _) fun _ => ?_
  refine length_ite_le (fun _ => length_textToken_le _) fun _ => ?_
  refine length_ite_le (fun _ => length_wordToken_le _ _ _) fun _ => ?_
  refine length_ite_le (fun _ => length_wordToken_le _ _ _) fun _ => ?_
  refine length_ite_le (fun _ => length_wordToken_le _ _ _) fun _ => ?_
  refine length_ite_le (fun _ => length_lexNumber_le _ _) fun _ => ?_
  refine length_ite_le (fun hc => ?_) fun _ => Nat.zero_le _
  exact Nat.le_of_lt_succ (length_lexNumber_lt hc _)

/-- The tokens in `found`, newest first, followed by those of the text. -/
def tokensLoop (found : List Token) : List Char → List Token
  | [] => found.reverse
  | c :: rest =>
    if isBlank c then tokensLoop found rest
    else tokensLoop ((lexToken c rest).1 :: found) (lexToken c rest).2
termination_by text => text.length
decreasing_by
  · simp
  · exact Nat.lt_succ_of_le (length_lexToken c rest)

/-- The tokens of a JSON text. -/
def tokens (text : String) : List Token :=
  tokensLoop [] text.toList

end ScopeGrant.Json
