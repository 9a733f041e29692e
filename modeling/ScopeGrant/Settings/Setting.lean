import ScopeGrant.Numeric.Decimal
import ScopeGrant.Settings.Entries

/-!
# Settings as they are found

Settings come from documents and from environment variables. Before they are given a meaning they
are values of a few kinds, put together from lists and tables. A place that had to be made but was
given no value is absent.
-/

namespace ScopeGrant

/-- A setting as it is found. -/
inductive Setting where
  /-- A place without a value. -/
  | absent
  /-- A truth value. -/
  | boolean (value : Bool)
  /-- An integer. -/
  | integer (value : Int)
  /-- A floating-point number. -/
  | number (value : Binary64)
  /-- A text. -/
  | text (value : String)
  /-- A list of settings. -/
  | list (items : List Setting)
  /-- Settings by name. -/
  | table (entries : List (String × Setting))
deriving Inhabited

namespace Setting

/-- The settings in a table; a setting of another kind holds none. -/
def entries : Setting → Entries Setting
  | table entries => entries
  | _ => []

/-- The settings in a list; a setting of another kind holds none. -/
def items : Setting → List Setting
  | list items => items
  | _ => []

/-! ## Laying settings over others -/

mutual

/-- Lay a setting over another one: a table adds its entries to those of a table, and all else takes
the place of what was there. -/
def layOver : Setting → Setting → Setting
  | table entries, base => table (layEntries entries base.entries)
  | setting, _ => setting

/-- Lay the entries of a table over those of another one. -/
def layEntries : List (String × Setting) → Entries Setting → Entries Setting
  | [], base => base
  | (name, setting) :: rest, base =>
    layEntries rest (base.put name (setting.layOver ((base.get? name).getD absent)))

end

/-! ## Reaching a place -/

/-- One step towards a setting inside another one. -/
inductive Step where
  /-- The entry with a name. -/
  | entry (name : String)
  /-- The item at a place of a list; places below zero count from the end. -/
  | item (place : Int)
deriving Repr, DecidableEq, Inhabited

/-- A list that reaches as far as a place, and the place as an index. Items that are missing are
absent; for a place before the first item they are put in front. -/
def reach (place : Int) (items : List Setting) : List Setting × Nat :=
  let index := if place < 0 then place + items.length else place
  if index < 0 then (List.replicate (-index).toNat absent ++ items, 0)
  else (items ++ List.replicate (index.toNat + 1 - items.length) absent, index.toNat)

/-- Lay a setting over the one at the end of a path, making what is missing on the way. What stands
in the way as a value of another kind is replaced. -/
def layAt (setting : Setting) : List Step → Setting → Setting
  | [], base => setting.layOver base
  | .entry name :: path, base =>
    let inner := (base.entries.get? name).getD absent
    table (base.entries.put name (layAt setting path inner))
  | .item place :: path, base =>
    let (items, index) := reach place base.items
    list (items.modify index (layAt setting path))

end Setting

end ScopeGrant
