import ScopeGrant.Settings.Setting
import ScopeGrant.Toml.Key

/-!
# Tables of a document

A document builds up nested tables piece by piece. Each table may be defined once: by a header of
its own, or by keys with points in one stretch of assignments. A table that was only passed on the
way to another one may still be defined in either way, but not in both. Values are closed, and so
are lists and tables that are written as values; lists of tables that are written with headers grow
at their end.
-/

namespace ScopeGrant.Toml

/-- How a table came about. -/
inductive Origin where
  /-- It has a header of its own, or is the outermost table. -/
  | header
  /-- It was only passed on the way to the table of a header. -/
  | implied
  /-- A key with points went through it, which defines it. -/
  | dotted
deriving Repr, DecidableEq

/-- What a name stands for while a document is being read. -/
inductive Node where
  /-- A value, which is not added to. -/
  | closed (value : Setting)
  /-- A table. -/
  | table (origin : Origin) (entries : List (String × Node))
  /-- A list of tables, of which the last may be added to. -/
  | tables (earlier : List Setting) (last : List (String × Node))

mutual

/-- What a name stands for once the document is read. -/
def Node.setting : Node → Setting
  | .closed value => value
  | .table _ entries => .table (settingsOf entries)
  | .tables earlier last => .list (earlier ++ [.table (settingsOf last)])

/-- What the names of a table stand for once the document is read. -/
def settingsOf : List (String × Node) → Entries Setting
  | [] => []
  | (name, node) :: rest => (name, node.setting) :: settingsOf rest

end

/-- Change the table at the end of a path below a table, making those that are missing on the way. A
path goes through the last table of a list. It does not go through values, and that of a key with
points does not go through tables with a header; the others on its way are defined by it. -/
def descend (dotted : Bool)
    (change : Origin → Entries Node → Option (Entries Node)) :
    List String → Origin → Entries Node → Option (Entries Node)
  | [], origin, entries => change origin entries
  | name :: path, _, entries =>
    match entries.get? name with
    | none => do
      let origin := if dotted then .dotted else .implied
      return entries.put name (.table origin (← descend dotted change path origin []))
    | some (.closed _) => none
    | some (.table origin inner) => do
      if dotted && origin = .header then none
      let origin := if dotted then .dotted else origin
      return entries.put name (.table origin (← descend dotted change path origin inner))
    | some (.tables earlier last) => do
      return entries.put name (.tables earlier (← descend dotted change path .header last))

/-- Give a key a value in a table. A key with points adds only to tables that such keys define, and
no name gets a second value. -/
def assign (key : Key) (value : Setting) (entries : Entries Node) : Option (Entries Node) :=
  descend true (fun origin entries =>
    if (!key.parents.isEmpty && origin ≠ .dotted) || (entries.get? key.last).isSome then none
    else some (entries.put key.last (.closed value))) key.parents .header entries

/-- Define the table of a header. -/
def define (key : Key) : Entries Node → Option (Entries Node) :=
  descend false (fun _ entries =>
    match entries.get? key.last with
    | none => some (entries.put key.last (.table .header []))
    | some (.table .implied inner) => some (entries.put key.last (.table .header inner))
    | some _ => none) key.parents .header

/-- Add a table to the list of a header. -/
def append (key : Key) : Entries Node → Option (Entries Node) :=
  descend false (fun _ entries =>
    match entries.get? key.last with
    | none => some (entries.put key.last (.tables [] []))
    | some (.tables earlier last) =>
      some (entries.put key.last (.tables (earlier ++ [.table (settingsOf last)]) []))
    | some _ => none) key.parents .header

/-- Give a key a value in the table at the end of a path. -/
def assignIn (path : List String) (key : Key) (value : Setting) :
    Entries Node → Option (Entries Node) :=
  descend false (fun _ => assign key value) path .header

end ScopeGrant.Toml
