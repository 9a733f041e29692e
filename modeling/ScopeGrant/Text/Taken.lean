/-!
# Taking values from the front of a row

Reading goes through a row of characters or tokens from left to right. What is taken from the front
is always at least one of them, and the value that is taken carries the proof of that, so that a
loop which takes one value after another comes to its end.
-/

namespace ScopeGrant.Text

/-- A value taken from the front of a row. -/
structure Taken {τ : Type} (row : List τ) (α : Type) where
  /-- The value. -/
  value : α
  /-- What follows it. -/
  rest : List τ
  /-- Something was taken. -/
  shorter : rest.length < row.length

namespace Taken

variable {τ α β : Type} {row : List τ}

/-- A value that stands for the first of a row. -/
def first (value : α) {t : τ} {rest : List τ} : Taken (t :: rest) α :=
  ⟨value, rest, Nat.lt_succ_self _⟩

/-- A value taken behind the first of a row, which is taken too. -/
def behind {t : τ} (taken : Taken row α) : Taken (t :: row) α :=
  ⟨taken.value, taken.rest, Nat.lt_succ_of_lt taken.shorter⟩

/-- The same stretch with another value. -/
def map (f : α → β) (taken : Taken row α) : Taken row β :=
  ⟨f taken.value, taken.rest, taken.shorter⟩

/-- A value taken from the end of a longer row, with what stands before it taken too. -/
def widen {longer : List τ} (taken : Taken row α) (h : row.length ≤ longer.length) :
    Taken longer α :=
  ⟨taken.value, taken.rest, Nat.lt_of_lt_of_le taken.shorter h⟩

/-- A value taken behind another one, which is taken too. -/
def followedBy (earlier : Taken row α) (later : Taken earlier.rest β) : Taken row β :=
  ⟨later.value, later.rest, Nat.lt_trans later.shorter earlier.shorter⟩

end Taken

end ScopeGrant.Text
