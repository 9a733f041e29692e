/-!
# Files

Settings may be kept in files. An area is a directory whose files are known; a path is followed from
it step by step as a file system does, and what lies outside the area is not known to be there. The
document for a path is the file at its end or, if a directory is there, the file whose path is that
of the directory with the extension for documents.
-/

namespace ScopeGrant

/-- What is found at the end of a path. -/
inductive FileEntry where
  /-- A file with its text. -/
  | file (text : String)
  /-- A directory. -/
  | directory
deriving Repr, DecidableEq, Inhabited

/-- A place that a path leads to. -/
inductive FilePlace where
  /-- A place in the area. -/
  | inside (path : List String)
  /-- A directory around the area. -/
  | outside
deriving Repr, DecidableEq, Inhabited

/-- The place to which a name leads from a directory, if it is known. An empty name, as behind a
slash at the end, and a single point stay there, and two points go to the directory around it. -/
def FilePlace.next (place : FilePlace) (name : String) : Option FilePlace :=
  if name = "" ∨ name = "." then some place
  else
    match place with
    | .inside path =>
      if name = ".." then some (if path.isEmpty then .outside else .inside path.dropLast)
      else some (.inside (path ++ [name]))
    | .outside => if name = ".." then some .outside else none

/-- The names in a path, with an empty one wherever a slash has none before or behind it. -/
def pathNames (path : String) : List String :=
  (path.toList.splitOn '/').map String.ofList

/-- Where a path begins, and the names to follow from there. The empty path leads nowhere, and one
that begins with a slash begins outside the area. -/
def pathStart (path : String) : Option (FilePlace × List String) :=
  match pathNames path with
  | [""] => none
  | "" :: names => some (.outside, names)
  | names => some (.inside [], names)

/-- A directory with what is in it, by path. -/
structure FileArea where
  /-- The files and directories in it, with the directories on the way to them. A path that occurs
  twice leads to what it comes with first. -/
  entries : List (List String × FileEntry) := []
deriving Repr, Inhabited

namespace FileArea

/-- What is there once an entry is made where names lead to from a place: the entry, if that is in
the area. -/
def madeAt (start : FilePlace) (entry : FileEntry) (names : List String) :
    Option (List String × FileEntry) := do
  match ← names.foldlM FilePlace.next start with
  | .inside path => some (path, entry)
  | .outside => none

/-- What is there once an entry is made at the end of a path: the entry, and the directories that
are passed on the way. -/
def made (path : String) (entry : FileEntry) : List (List String × FileEntry) :=
  match pathStart path with
  | none => []
  | some (start, names) =>
    let passed := (List.range names.length).map names.take
    (madeAt start entry names).toList ++ passed.filterMap (madeAt start .directory)

/-- The area in which entries are made one after the other, by their paths. Of two for one path the
later one stays. -/
def ofList (entries : List (String × FileEntry)) : FileArea :=
  ⟨entries.reverse.flatMap fun (path, entry) => made path entry⟩

/-- What is at a path in the area, if anything. -/
def entryAt? (area : FileArea) (path : List String) : Option FileEntry :=
  if path.isEmpty then some .directory else area.entries.lookup path

example : (ofList [("./a//../b", .file "text")]).entryAt? ["b"] = some (.file "text") := by
  decide +kernel

example : (ofList [("./a//../b", .file "text")]).entryAt? ["a"] = some .directory := by
  decide +kernel

/-- Whether something is known to be at a place. -/
def holds (area : FileArea) : FilePlace → Bool
  | .outside => true
  | .inside path => (area.entryAt? path).isSome

/-- Whether a place is a directory. -/
def isDirectory (area : FileArea) : FilePlace → Bool
  | .outside => true
  | .inside path => area.entryAt? path == some .directory

/-- Follow one name of a path from a directory. -/
def step (area : FileArea) (place : FilePlace) (name : String) : Option FilePlace :=
  if area.isDirectory place then (place.next name).filter area.holds else none

/-- Where a path leads. -/
def place? (area : FileArea) (path : String) : Option FilePlace := do
  let (start, names) ← pathStart path
  names.foldlM area.step start

/-- The text of the file at a place, if there is one. -/
def text? (area : FileArea) : FilePlace → Option String
  | .outside => none
  | .inside path =>
    match area.entryAt? path with
    | some (.file text) => some text
    | _ => none

/-- The extension of the files that hold documents. -/
def extension : String := ".toml"

/-- Whether a name has an extension: a point behind its first character. -/
def hasExtension (name : String) : Bool :=
  (name.toList.drop 1).contains '.'

/-- What stands for the name of a document behind a slash. -/
def placeholder : String := ".placeholder"

/-- The path of the document for a directory, which has the extension behind the path of the
directory. If the name of the directory has an extension already, that path is taken as it is
written, and behind a slash at its end goes the placeholder; otherwise slashes and single points at
its end do not count. A directory without a name has no document. -/
def documentPath? (path : String) : Option String :=
  let names := ((pathNames path).reverse.dropWhile fun name => name = "" ∨ name = ".").reverse
  match names.getLast? with
  | none => none
  | some last =>
    if last = ".." then none
    else if hasExtension last then
      if (pathNames path).getLast? = some "" then some (path ++ placeholder ++ extension)
      else some (path ++ extension)
    else some (String.intercalate "/" (names.dropLast ++ [last ++ extension]))

example : documentPath? "conf/main/" = some "conf/main.toml" := by decide +kernel

example : documentPath? "conf.d/" = some "conf.d/.placeholder.toml" := by decide +kernel

/-- The document for a path. -/
def document? (area : FileArea) (path : String) : Option String :=
  match (area.place? path).bind area.text? with
  | some text => some text
  | none => (documentPath? path).bind fun path => (area.place? path).bind area.text?

end FileArea

end ScopeGrant
