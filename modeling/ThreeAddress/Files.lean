import ThreeAddress.Text.Utf8

/-!
# Files

A tree of files and directories, and the way along a path from its root. A path is read from left to
right: an empty part and `.` stay where they are, `..` goes back up, and nothing lies above the root.
-/

namespace ThreeAddress

inductive Entry where
  | file (bytes : List UInt8)
  | directory (entries : List (String × Entry))

/-- Why a path leads to nothing, or to nothing that can be read. -/
inductive PathError where
  | missing
  | notDirectory
  | isDirectory
deriving DecidableEq, Repr

def PathError.message : PathError → String
  | .missing => "No such file or directory (os error 2)"
  | .notDirectory => "Not a directory (os error 20)"
  | .isDirectory => "Is a directory (os error 21)"

namespace Entry

/-- Goes along the parts of a path, given the directories above, the nearest first. -/
def walk (above : List Entry) (e : Entry) : List String → Except PathError Entry
  | [] => .ok e
  | part :: parts =>
    match e with
    | .file _ => .error .notDirectory
    | .directory entries =>
      if part = "" ∨ part = "." then walk above e parts
      else if part = ".." then
        match above with
        | [] => .error .missing
        | parent :: above => walk above parent parts
      else
        match entries.lookup part with
        | none => .error .missing
        | some inner => walk (e :: above) inner parts

/-- What a path leads to from the root of a tree. -/
def find (root : Entry) (path : String) : Except PathError Entry :=
  if path.isEmpty || path.toList.head? == some '/' then .error .missing
  else root.walk [] ((path.toList.splitOn '/').map String.ofList)

/-- The text of a file among the entries of a directory. A directory and a file that is no text count
as absent. -/
def textIn? (entries : List (String × Entry)) (name : String) : Option String :=
  match entries.lookup name with
  | some (.file bytes) => Text.ofUtf8? bytes
  | _ => none

end Entry

end ThreeAddress
