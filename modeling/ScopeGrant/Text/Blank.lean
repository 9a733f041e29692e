/-!
# Blank characters

The characters that separate words in running text: those with the Unicode property `White_Space`.
There are twenty-five of them, and they are given here as closed ranges of code points.
-/

namespace ScopeGrant.Text

/-- A closed range of code points. -/
structure CodeRange where
  /-- The least code point of the range. -/
  first : Nat
  /-- The greatest code point of the range. -/
  last : Nat
deriving Repr, DecidableEq

/-- Whether a character lies in the range. -/
def CodeRange.holds (range : CodeRange) (c : Char) : Bool :=
  range.first ≤ c.toNat && c.toNat ≤ range.last

/-- The code points with the property `White_Space`, in ascending order. -/
def blankRanges : List CodeRange :=
  [⟨0x9, 0xD⟩, ⟨0x20, 0x20⟩, ⟨0x85, 0x85⟩, ⟨0xA0, 0xA0⟩, ⟨0x1680, 0x1680⟩, ⟨0x2000, 0x200A⟩,
   ⟨0x2028, 0x2029⟩, ⟨0x202F, 0x202F⟩, ⟨0x205F, 0x205F⟩, ⟨0x3000, 0x3000⟩]

/-- Whether a character is blank. -/
def isBlank (c : Char) : Bool :=
  blankRanges.any (·.holds c)

/-- Whether a text holds nothing but blank characters; the empty text does. -/
def isBlankText (text : String) : Bool :=
  text.toList.all isBlank

end ScopeGrant.Text
