import ThreeAddress.Files

/-!
# Test cases

A test case is a file whose name ends in `.src`, together with the files beside it that have the
same stem. `cases` finds the cases of a directory, and on demand those of all directories in it, in
the order of their paths.
-/

namespace ThreeAddress.Suite

/-- A case: the way to its directory, its name without `.src`, and all that lies in its directory. -/
structure Case where
  path : List String
  stem : String
  siblings : List (String × Entry)

/-- What stands before the `.src` at the end of a file's name, which has to be something. -/
def stem? (name : String) : Option String :=
  match name.toList.reverse with
  | 'c' :: 'r' :: 's' :: '.' :: stem =>
    if stem.isEmpty then none else some (String.ofList stem.reverse)
  | _ => none

/-- The cases among the given entries of the directory that holds `siblings`. -/
def collect (recursive : Bool) (path : List String) (siblings : List (String × Entry)) :
    List (String × Entry) → List Case
  | [] => []
  | (name, .file _) :: rest =>
    ((stem? name).map fun stem => { path, stem, siblings }).toList ++
      collect recursive path siblings rest
  | (name, .directory inner) :: rest =>
    (if recursive then collect recursive (path ++ [name]) inner inner else []) ++
      collect recursive path siblings rest

namespace Case

/-- The parts of the path of a case. The stem `.` names the directory itself. -/
def parts (c : Case) : List String := if c.stem = "." then c.path else c.path ++ [c.stem]

/-- The parts as they are compared. The way up comes before every name. -/
def key (c : Case) : List String := c.parts.map fun part => if part = ".." then "" else part

/-- Whether a case does not come after another. -/
def le (c d : Case) : Bool := !d.key.lex c.key fun s t => decide (s < t)

/-- The name of a case in a report, after that of the directory that was searched. -/
def name (c : Case) (base : String) : String := base ++ "/".intercalate c.parts

/-- The text of the file beside the case with the given extension. -/
def companion? (c : Case) (extension : String) : Option String :=
  Entry.textIn? c.siblings (c.stem ++ "." ++ extension)

end Case

/-- The cases of a directory, sorted part by part. -/
def cases (recursive : Bool) : Entry → Except PathError (List Case)
  | .file _ => .error .notDirectory
  | .directory entries =>
    .ok ((collect recursive [] entries entries).mergeSort Case.le)

/-- A path without the parts at its start that stay where they are. -/
def dropHere : List Char → List Char
  | '/' :: cs => dropHere cs
  | '.' :: '/' :: cs => dropHere cs
  | ['.'] => []
  | cs => cs

/-- What precedes the names of the cases that were found along a path. -/
def baseOf (path : String) : String :=
  let cs := dropHere path.toList
  if cs.isEmpty || cs.getLast? == some '/' then String.ofList cs else String.ofList (cs ++ ['/'])

end ThreeAddress.Suite
