/-!
# Classes of errors

Every error belongs to a class, and the class decides the exit code of the program.
-/

namespace ThreeAddress

inductive ErrorClass where
  /-- A missing or forbidden combination of command-line parameters. -/
  | parameter
  /-- Input that cannot be opened or read. -/
  | inputOpen
  /-- Output that cannot be opened or written. -/
  | outputOpen
  /-- Source text without its header. -/
  | header
  | opcode
  /-- Any other fault in source text. -/
  | lexical
  /-- XML that is not well-formed. -/
  | sourceFormat
  /-- Well-formed XML that describes no program. -/
  | sourceStructure
  /-- A directory of test cases that cannot be listed. -/
  | testDirectory
  /-- Undefined or repeated labels, and redefined variables. -/
  | semantic
  | operandType
  | undeclaredVariable
  | frameNotFound
  /-- A missing value in a variable, on the data stack or on the call stack. -/
  | missingValue
  | operandValue
  | stringOperation
  /-- A disagreement between two parts of the program itself. -/
  | internal
deriving DecidableEq, Repr

def ErrorClass.exitCode : ErrorClass → Nat
  | .parameter => 10
  | .inputOpen => 11
  | .outputOpen => 12
  | .header => 21
  | .opcode => 22
  | .lexical => 23
  | .sourceFormat => 31
  | .sourceStructure => 32
  | .testDirectory => 41
  | .semantic => 52
  | .operandType => 53
  | .undeclaredVariable => 54
  | .frameNotFound => 55
  | .missingValue => 56
  | .operandValue => 57
  | .stringOperation => 58
  | .internal => 99

end ThreeAddress
