import ThreeAddress.Command.Arguments

/-!
# Performing commands

What a command answers, given the files that it can find and its standard input: an exit code and
the texts on standard output and standard error. An error ends a command with one line on standard
error and the exit code of its class.
-/

namespace ThreeAddress.Command

/-- What a command can see. -/
structure World where
  find : String → Except PathError Entry
  stdin : List UInt8

structure Response where
  code : Nat
  stdout : String
  stderr : String
deriving DecidableEq, Repr

def errorLine (message : String) : String := "error: " ++ message ++ "\n"

def refuse (c : ErrorClass) (message : String) : Response :=
  { code := c.exitCode, stdout := "", stderr := errorLine message }

def print (text : String) : Response := { code := 0, stdout := text, stderr := "" }

/-! ## Reading -/

/-- The text of a file. -/
def readFile (w : World) (path : String) : Except Response String :=
  let failed := fun reason => .error (refuse .inputOpen ("cannot read '" ++ path ++ "': " ++ reason))
  match w.find path with
  | .error e => failed e.message
  | .ok (.directory _) => failed PathError.isDirectory.message
  | .ok (.file bytes) =>
    match Text.ofUtf8? bytes with
    | some text => .ok text
    | none => failed Text.notUtf8

/-- The text of a file, or of the standard input if none is named. -/
def readSource (w : World) : Option String → Except Response String
  | some path => readFile w path
  | none =>
    match Text.ofUtf8? w.stdin with
    | some text => .ok text
    | none => .error (refuse .inputOpen ("cannot read stdin: " ++ Text.notUtf8))

/-- The input of a program: a file, or the standard input if none is named. A directory can be opened
and fails when it is read. -/
def openInput (w : World) : Option String → Except Response Input
  | none => .ok (.ofBytes w.stdin)
  | some path =>
    match w.find path with
    | .error e => .error (refuse .inputOpen ("cannot open '" ++ path ++ "': " ++ e.message))
    | .ok (.directory _) => .ok { rest := [], fault := some PathError.isDirectory.message }
    | .ok (.file bytes) => .ok (.ofBytes bytes)

def assemble (text : String) : Except Response Program :=
  (Source.assemble text).mapError fun e => refuse e.errorClass e.message

def load (document : String) : Except Response Program :=
  (Document.load document).mapError fun e => refuse e.errorClass e.message

/-! ## Running -/

/-- Runs a program, if it ends within `fuel` instructions. -/
def execute (fuel : Nat) (program : Program) (input : Input) : Option Response :=
  match (Machine.fresh input .unlimited .unlimited).run fuel program with
  | (_, .running) => none
  | (m, .ended how) =>
    some { code := how.exitCode, stdout := m.output.text, stderr := m.diagnostic.text }
  | (m, .failed e) =>
    some
      { code := e.errorClass.exitCode, stdout := m.output.text,
        stderr := m.diagnostic.text ++ errorLine e.message }

/-- Runs what was read, or answers why nothing could be. -/
def executeRead (fuel : Nat) : Except Response (Program × Input) → Option Response
  | .ok (program, input) => execute fuel program input
  | .error r => some r

/-- The text that was made, or the answer why none could be. -/
def printed : Except Response String → Option Response
  | .ok text => some (print text)
  | .error r => some r

/-- Performs a command, if the programs that it runs end within `fuel` instructions each. The input of
a program is opened before the program is read. -/
def perform (fuel : Nat) (w : World) : Command → Option Response
  | .parse =>
    printed do
      let program ← assemble (← readSource w none)
      return Document.print program
  | .interpret none none =>
    some (refuse .parameter "at least one of --source and --input is required")
  | .interpret source input =>
    executeRead fuel do
      let input ← openInput w input
      return (← load (← readSource w source), input)
  | .run file input =>
    executeRead fuel do
      let input ← openInput w input
      return (← assemble (← readFile w file), input)
  | .unparse source =>
    printed do
      let program ← load (← readSource w source)
      return Source.print program
  | .test directory recursive mode =>
    match w.find directory >>= Suite.cases recursive with
    | .ok cases => (Suite.runAll fuel mode "" cases).map fun results => print (Suite.report results)
    | .error e =>
      some (refuse .testDirectory ("cannot search '" ++ directory ++ "': " ++ e.message))

end ThreeAddress.Command
