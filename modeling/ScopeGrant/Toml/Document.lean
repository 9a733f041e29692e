import ScopeGrant.Toml.Value

/-!
# Documents

A document is a row of statements, one a line: assignments, and headers of tables and of lists of
tables. An assignment goes to the table of the last header before it. Blank lines and comments do
not count.
-/

namespace ScopeGrant.Toml

open Text (Taken)

/-- A statement of a document. -/
inductive Statement where
  /-- Give a key a value in the current table. -/
  | assign (key : Key) (value : Setting)
  /-- Define a table and make it the current one. -/
  | define (key : Key)
  /-- Add a table to a list and make it the current one. -/
  | append (key : Key)

/-! ## Reading statements -/

/-- Take the key of a table's header behind its bracket, and the bracket that closes it. -/
def tableHeader : Reader Key := fun cs =>
  match key cs with
  | none => none
  | some key =>
    (behindSpace (sign ']') key.rest).map fun closed =>
      key.followedBy (closed.map fun _ => key.value)

/-- Take the key of a list's header behind its brackets, and the brackets that close it. -/
def listHeader : Reader Key := fun cs =>
  match tableHeader cs with
  | none => none
  | some header =>
    (sign ']' header.rest).map fun closed => header.followedBy (closed.map fun _ => header.value)

/-- Take a statement. -/
def statement : Reader Statement
  | '[' :: '[' :: rest => (listHeader rest).map fun header => (header.map .append).behind.behind
  | '[' :: rest => (tableHeader rest).map fun header => (header.map .define).behind
  | cs =>
    (assignment behindSpace (value maxNesting) cs).map (·.map fun pair => .assign pair.1 pair.2)

/-- What follows a comment at the front of a text, if there is one. -/
def dropComment : List Char → List Char
  | '#' :: rest => rest.dropWhile isLineChar
  | rest => rest

theorem length_dropComment (cs : List Char) : (dropComment cs).length ≤ cs.length := by
  unfold dropComment
  split
  · exact Nat.le_succ_of_le (List.dropWhile_sublist _).length_le
  · exact Nat.le_refl _

/-- What follows the end of a line, if nothing but blanks and a comment stands before it. -/
def endLine (cs : List Char) : Option { rest : List Char // rest.length ≤ cs.length } :=
  have h := Nat.le_trans (length_dropComment (dropSpace cs)) (length_dropSpace cs)
  match _h : dropComment (dropSpace cs) with
  | [] => some ⟨[], Nat.zero_le _⟩
  | c :: rest =>
    (lineEnd (c :: rest)).map fun taken =>
      ⟨taken.rest, Nat.le_trans (Nat.le_of_lt taken.shorter) (_h ▸ h)⟩

/-- The statements of a text. -/
def statements (cs : List Char) : Option (List Statement) :=
  match _h : dropGaps cs with
  | [] => some []
  | c :: rest =>
    match statement (c :: rest) with
    | none => none
    | some taken =>
      match endLine taken.rest with
      | none => none
      | some ended => (statements ended.val).map (taken.value :: ·)
termination_by cs.length
decreasing_by
  have := taken.shorter
  have := ended.property
  have := length_dropGaps cs
  simp only [_h] at this
  omega

/-! ## Building the tables -/

/-- The tables of the statements so far, and the path of the current one. -/
structure Draft where
  /-- The outermost table. -/
  entries : Entries Node := []
  /-- The path of the current table. -/
  path : List String := []

/-- Follow one statement. -/
def Draft.follow (draft : Draft) : Statement → Option Draft
  | .assign key value => do
    return { draft with entries := ← assignIn draft.path key value draft.entries }
  | .define key => do return ⟨← define key draft.entries, key.path⟩
  | .append key => do return ⟨← append key draft.entries, key.path⟩

/-- A text without the mark of byte order at its front, if there is one. -/
def dropMark : List Char → List Char
  | '\uFEFF' :: rest => rest
  | cs => cs

/-- The settings in a document. -/
def read? (document : String) : Option (Entries Setting) := do
  let draft ← (← statements (dropMark document.toList)).foldlM Draft.follow {}
  return settingsOf draft.entries

end ScopeGrant.Toml
