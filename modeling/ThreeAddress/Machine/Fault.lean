import ThreeAddress.Instruction

/-!
# Faults of a running program

A fault is a cause; a runtime error is a fault with the position at which it arose. The position is
that of an executable instruction, except for a repeated label, where it is that of the label in the
program that brought it.
-/

namespace ThreeAddress

inductive Fault where
  | duplicateLabel (name : String)
  | undefinedLabel (name : String)
  | redefinition (v : Variable)
  /-- Values of these kinds are no operands of the opcode. -/
  | operandType (op : Opcode) (found : List Kind)
  | undeclaredVariable (v : Variable)
  | frameNotFound (frame : FrameName)
  | unsetVariable (v : Variable)
  | emptyDataStack
  | emptyCallStack
  | divisionByZero
  | exitCodeOutOfRange (code : Int64)
  | indexOutOfRange (index : Int64) (length : Nat)
  | invalidCodePoint (code : Int64)
  | readFailed (reason : String)
  | writeFailed (reason : String)
deriving DecidableEq, Repr

structure RuntimeError where
  fault : Fault
  position : Nat
deriving DecidableEq, Repr

def Fault.errorClass : Fault → ErrorClass
  | .duplicateLabel _ | .undefinedLabel _ | .redefinition _ => .semantic
  | .operandType .. => .operandType
  | .undeclaredVariable _ => .undeclaredVariable
  | .frameNotFound _ => .frameNotFound
  | .unsetVariable _ | .emptyDataStack | .emptyCallStack => .missingValue
  | .divisionByZero | .exitCodeOutOfRange _ => .operandValue
  | .indexOutOfRange .. | .invalidCodePoint _ => .stringOperation
  | .readFailed _ => .inputOpen
  | .writeFailed _ => .outputOpen

/-- What happened, and the reason for it if there is one. -/
def Fault.parts : Fault → String × Option String
  | .duplicateLabel name => ("duplicate label '" ++ name ++ "'", none)
  | .undefinedLabel name => ("undefined label '" ++ name ++ "'", none)
  | .redefinition v => ("redefinition of variable " ++ v.text, none)
  | .operandType op found =>
    (op.mnemonic ++ ": bad operand types (" ++ ", ".intercalate (found.map Kind.name) ++ ")", none)
  | .undeclaredVariable v => ("undeclared variable " ++ v.text, none)
  | .frameNotFound frame => ("frame " ++ frame.text ++ " does not exist", none)
  | .unsetVariable v => ("variable " ++ v.text ++ " has no value", none)
  | .emptyDataStack => ("data stack is empty", none)
  | .emptyCallStack => ("call stack is empty", none)
  | .divisionByZero => ("division by zero", none)
  | .exitCodeOutOfRange code => ("exit code " ++ Text.intText code ++ " out of range 0..=49", none)
  | .indexOutOfRange index length =>
    ("index " ++ Text.intText index ++ " out of range (length " ++ toString length ++ ")", none)
  | .invalidCodePoint code => ("invalid code point " ++ Text.intText code, none)
  | .readFailed reason => ("cannot read input", some reason)
  | .writeFailed reason => ("cannot write output", some reason)

namespace RuntimeError

def message (e : RuntimeError) : String :=
  let (what, reason) := e.fault.parts
  let place := what ++ " at instruction " ++ toString e.position
  match reason with
  | some reason => place ++ ": " ++ reason
  | none => place

def errorClass (e : RuntimeError) : ErrorClass := e.fault.errorClass

end RuntimeError

end ThreeAddress
