/-!
# Entries by name

A table holds values by name. Its entries stand in the order in which their names first came up, and
each name stands once: giving it a value again replaces the value where it is.
-/

namespace ScopeGrant

/-- Values by name. -/
abbrev Entries (α : Type) := List (String × α)

namespace Entries

variable {α : Type}

/-- The value of a name. -/
def get? (name : String) : Entries α → Option α
  | [] => none
  | (key, value) :: rest => if key = name then some value else get? name rest

/-- Give a name a value. -/
def put (name : String) (value : α) : Entries α → Entries α
  | [] => [(name, value)]
  | (key, old) :: rest =>
    if key = name then (key, value) :: rest else (key, old) :: put name value rest

@[simp] theorem get?_put_self (name : String) (value : α) (entries : Entries α) :
    get? name (put name value entries) = some value := by
  induction entries with
  | nil => simp [put, get?]
  | cons entry rest ih =>
    by_cases h : entry.1 = name <;> simp [put, get?, h, ih]

theorem get?_put_of_ne {name other : String} (h : other ≠ name) (value : α) (entries : Entries α) :
    get? other (put name value entries) = get? other entries := by
  induction entries with
  | nil => simp [put, get?, h.symm]
  | cons entry rest ih =>
    by_cases hk : entry.1 = name
    · subst hk
      simp [put, get?, h.symm]
    · simp only [put, hk, if_false, get?]
      split
      · rfl
      · exact ih

end Entries

end ScopeGrant
