import ThreeAddress.Document.Loader
import ThreeAddress.Machine.Run
import ThreeAddress.Source.Assembly
import ThreeAddress.Suite.Case

/-!
# Running test cases

A case says which exit code and which output it expects. `Case.run` runs one, and `report` is the
text on all of them. A program of a case may run forever, so a case is run with a number of
instructions, and has no result if they do not suffice.
-/

namespace ThreeAddress.Suite

/-- What the `.src` file of a case holds and what is done with it. -/
inductive Mode where
  /-- Source text, which is run by way of its document. -/
  | both
  /-- Source text, whose document is the output. -/
  | parseOnly
  /-- The document of a program, which is run. -/
  | interpretOnly
deriving DecidableEq, Repr

structure Result where
  name : String
  expected : Int
  returned : Nat
  /-- Whether the output is the expected one. It is compared only between successes. -/
  outputMatches : Option Bool
deriving DecidableEq, Repr

def Result.passed (r : Result) : Bool := r.expected == r.returned && r.outputMatches != some false

/-! ## One case -/

/-- Runs a program on an input text: the exit code and the output. -/
def execute (fuel : Nat) (program : Program) (input : String) : Option (Nat × String) :=
  let fresh := Machine.fresh (.ofBytes (Text.toUtf8 input)) .unlimited .unlimited
  match fresh.run fuel program with
  | (_, .running) => none
  | (m, .ended how) => some (how.exitCode, m.output.text)
  | (m, .failed e) => some (e.errorClass.exitCode, m.output.text)

/-- The exit code of an error, with no output. -/
def rejected (c : ErrorClass) : Option (Nat × String) := some (c.exitCode, "")

/-- The exit code and the output of a source file in the given mode. -/
def outcome (fuel : Nat) (mode : Mode) (source input : String) : Option (Nat × String) :=
  match mode with
  | .both =>
    match Source.assemble source with
    | .error e => rejected e.errorClass
    | .ok program =>
      match Document.load (Document.print program) with
      | .error _ => rejected .internal
      | .ok program => execute fuel program input
  | .parseOnly =>
    match Source.assemble source with
    | .error e => rejected e.errorClass
    | .ok program => some (0, Document.print program)
  | .interpretOnly =>
    match Document.load source with
    | .error e => rejected e.errorClass
    | .ok program => execute fuel program input

/-- Whether an output is the expected one. Documents are compared by the programs they describe. -/
def agrees (mode : Mode) (output expected : String) : Bool :=
  match mode with
  | .parseOnly =>
    match Document.load output, Document.load expected with
    | .ok p, .ok q => p == q
    | _, _ => false
  | _ => output == expected

/-- Reads an exit code: a 32-bit integer with an optional sign. -/
def codeOf? (text : String) : Option Int :=
  let (negative, digits) := Text.splitSign (Text.trimChars text.toList)
  match Text.natural? 10 digits with
  | none => none
  | some n =>
    let code : Int := if negative then -(n : Int) else n
    if Int32.minValue.toInt ≤ code ∧ code ≤ Int32.maxValue.toInt then some code else none

/-- The exit code that a case expects. -/
def Case.expected (c : Case) : Int := ((c.companion? "rc").bind codeOf?).getD 0

/-- Runs a case. A case whose source cannot be read as text returns the code for that. -/
def Case.run (fuel : Nat) (mode : Mode) (base : String) (c : Case) : Option Result :=
  let produced :=
    match c.companion? "src" with
    | some source => outcome fuel mode source ((c.companion? "in").getD "")
    | none => rejected .inputOpen
  produced.map fun (returned, output) =>
    { name := c.name base
      expected := c.expected
      returned
      outputMatches :=
        if c.expected = 0 ∧ returned = 0 then
          some (agrees mode output ((c.companion? "out").getD ""))
        else none }

/-! ## All cases -/

def Result.line (r : Result) : String :=
  if r.passed then "PASS  " ++ r.name ++ "\n"
  else if r.expected ≠ r.returned then
    "FAIL  " ++ r.name ++ ": expected code " ++ toString r.expected ++ ", got " ++
      toString r.returned ++ "\n"
  else "FAIL  " ++ r.name ++ ": output differs\n"

/-- One line for each case and a last one that counts. -/
def report (results : List Result) : String :=
  String.join (results.map Result.line) ++ toString (results.countP Result.passed) ++ "/" ++
    toString results.length ++ " passed\n"

/-- Runs cases in the given order. -/
def runAll (fuel : Nat) (mode : Mode) (base : String) (cs : List Case) : Option (List Result) :=
  cs.mapM (Case.run fuel mode base)

end ThreeAddress.Suite
