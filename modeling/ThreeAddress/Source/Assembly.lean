import ThreeAddress.Source.Word

/-!
# Source text

A program is written as a header line and one line for each instruction. `assemble` reads that text
and `print` writes it. Comments start with `#`, and lines without words count only for the numbers
of the lines after them.
-/

namespace ThreeAddress.Source

/-! ## Errors -/

/-- What is wrong with a line. -/
inductive Fault where
  | missingHeader
  | unknownOpcode (word : String)
  | missingOperand (op : Opcode)
  | unexpectedWord (word : String)
  | invalidOperand (expected : OperandKind) (word : String)
  | instruction (source : InstructionError)
deriving DecidableEq, Repr

namespace Fault

def message : Fault → String
  | .missingHeader => "expected '.IPPcode22' header"
  | .unknownOpcode word => "unknown opcode '" ++ word ++ "'"
  | .missingOperand op => op.mnemonic ++ " expects " ++ toString op.arity ++ " operand(s)"
  | .unexpectedWord word => "unexpected token '" ++ word ++ "'"
  | .invalidOperand expected word => "invalid " ++ expected.name ++ " '" ++ word ++ "'"
  | .instruction source => source.message

def errorClass : Fault → ErrorClass
  | .missingHeader => .header
  | .unknownOpcode _ => .opcode
  | _ => .lexical

end Fault

structure Error where
  line : Nat
  fault : Fault
deriving DecidableEq, Repr

def Error.message (e : Error) : String := "line " ++ toString e.line ++ ": " ++ e.fault.message

def Error.errorClass (e : Error) : ErrorClass := e.fault.errorClass

/-! ## Lines -/

/-- A line with at least one word: its number, its first word and the words after it. -/
structure Line where
  number : Nat
  head : String
  rest : List String
deriving DecidableEq, Repr

/-- The words of a line that stand before its comment. -/
def wordsOf (line : List Char) : List String :=
  (Text.words (line.takeWhile (· ≠ '#'))).map String.ofList

def Line.ofChars? (line : List Char) (number : Nat) : Option Line :=
  match wordsOf line with
  | [] => none
  | head :: rest => some { number, head, rest }

/-- The lines of a text that have words, numbered from 1. A carriage return before the end of a line
is blank space like any other. -/
def lines (text : String) : List Line :=
  ((text.toList.splitOn '\n').zipIdx 1).filterMap fun (line, number) => Line.ofChars? line number

/-! ## Reading -/

def header : String := ".IPPcode22"

def Line.isHeader (line : Line) : Bool :=
  Text.sameIgnoringCase line.head header && line.rest.isEmpty

def readOperand (expected : OperandKind) (word : String) : Except Fault Operand :=
  match operandOf? expected word with
  | some o => .ok o
  | none => .error (.invalidOperand expected word)

/-- Reads the words after an opcode. Their number is checked before any of them is read. -/
def readOperands (op : Opcode) (words : List String) : Except Fault (List Operand) :=
  if words.length < op.arity then .error (.missingOperand op)
  else
    match words.drop op.arity with
    | extra :: _ => .error (.unexpectedWord extra)
    | [] => (op.signature.zip words).mapM fun (expected, word) => readOperand expected word

def readInstruction (head : String) (rest : List String) : Except Fault Instruction :=
  match Opcode.ofMnemonic? head with
  | none => .error (.unknownOpcode head)
  | some op => do
    let operands ← readOperands op rest
    (Instruction.ofOperands op operands).mapError .instruction

def Line.instruction (line : Line) : Except Error Instruction :=
  (readInstruction line.head line.rest).mapError (Error.mk line.number)

/-- Reads a program. The first line with words has to be the header; a text without words is the
empty program. -/
def assemble (text : String) : Except Error Program :=
  match lines text with
  | [] => .ok []
  | first :: body =>
    if first.isHeader then body.mapM Line.instruction
    else .error { line := first.number, fault := .missingHeader }

/-! ## Printing -/

/-- Writes a program, one instruction on a line. -/
def print (program : Program) : String :=
  header ++ "\n" ++ String.join (program.map fun i => i.text ++ "\n")

end ThreeAddress.Source
