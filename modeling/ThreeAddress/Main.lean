import ThreeAddress.Command.Perform

/-!
# The command line

Reads the files that a command names and the standard input if it is needed, performs the command,
and writes what it answers.
-/

namespace ThreeAddress.Main

/-- The paths that a command reads, each with the depth to which a directory is listed. -/
def paths : Command → List (String × Nat)
  | .parse => []
  | .interpret source input => (source.toList ++ input.toList).map (·, 0)
  | .run file input => (file :: input.toList).map (·, 0)
  | .unparse source => source.toList.map (·, 0)
  | .test directory recursive _ => [(directory, if recursive then 1000 else 1)]

def readsStdin : Command → Bool
  | .parse => true
  | .interpret source input => source.isNone != input.isNone
  | .run _ input => input.isNone
  | .unparse source => source.isNone
  | .test .. => false

/-- Reads a file, or a directory as deep as asked for. -/
def readEntry : Nat → IO.FS.DirEntry → IO Entry
  | depth, d => do
    if ← d.path.isDir then
      match depth with
      | 0 => return .directory []
      | depth + 1 =>
        let inner ← d.path.readDir
        return .directory (← inner.toList.mapM fun d => return (d.fileName, ← readEntry depth d))
    else return .file (← IO.FS.readBinFile d.path).toList

def pathError : IO.Error → PathError
  | .inappropriateType .. => .notDirectory
  | _ => .missing

def readPath (path : String) (depth : Nat) : IO (Except PathError Entry) := do
  let d : IO.FS.DirEntry := { root := ← IO.currentDir, fileName := path }
  try
    discard d.path.metadata
    return .ok (← readEntry depth d)
  catch e => return .error (pathError e)

/-- All bytes of a stream. -/
partial def readAll (stream : IO.FS.Stream) (before : ByteArray) : IO ByteArray := do
  let bytes ← stream.read 65536
  if bytes.isEmpty then return before else readAll stream (before ++ bytes)

/-- What a command can see. -/
def world (command : Command) : IO Command.World := do
  let found ← (paths command).mapM fun (path, depth) => return (path, ← readPath path depth)
  let stdin ←
    if readsStdin command then pure (← readAll (← IO.getStdin) .empty).toList else pure []
  return { find := fun path => (found.lookup path).getD (.error .missing), stdin }

/-- More instructions than a run can execute in a lifetime. -/
def fuel : Nat := 1000000000000000000

def usage : String :=
  String.join
    ["Assemble and interpret IPPcode22 programs\n\nUsage: ippcode <COMMAND>\n\nCommands:\n",
      "  parse      Read IPPcode22 source on stdin and print its XML representation\n",
      "  interpret  Interpret a program in XML form [--source FILE] [--input FILE]\n",
      "  run        Assemble IPPcode22 source and run it: FILE [--input FILE]\n",
      "  unparse    Print an XML program as IPPcode22 source [--source FILE]\n",
      "  test       Run the cases in a directory [--directory DIR] [--recursive]\n",
      "             [--parse-only | --int-only]\n",
      "  help       Print this message\n"]

end ThreeAddress.Main

open ThreeAddress in
def main (args : List String) : IO UInt32 := do
  match Command.ofArguments args with
  | .error .help =>
    IO.print Main.usage
    return 0
  | .error .usage =>
    IO.eprint Main.usage
    return UInt32.ofNat ErrorClass.parameter.exitCode
  | .ok command =>
    match command.perform Main.fuel (← Main.world command) with
    | some r =>
      IO.print r.stdout
      IO.eprint r.stderr
      return UInt32.ofNat r.code
    | none => return UInt32.ofNat ErrorClass.internal.exitCode
