import ThreeAddress.Document.Printer
import ThreeAddress.Xml.Tree

/-!
# Loading a program from an XML document

`load` reads a document and `ofElement` its tree. The instructions of a document may stand in any
order, since each carries its number, and so may the arguments of an instruction. The first error in
the order of the document is the one reported.
-/

namespace ThreeAddress.Document

open Xml

/-! ## Errors -/

/-- What is wrong inside the instruction of some number. -/
inductive Fault where
  | unexpectedArgument (name : String)
  | argumentAttributes (name : String)
  | duplicateArgument (name : String)
  | missingArgument (position : Nat)
  | unknownArgumentType (type : String)
  | instruction (source : InstructionError)
deriving DecidableEq, Repr

def Fault.message : Fault → String
  | .unexpectedArgument name => "unexpected element '" ++ name ++ "'"
  | .argumentAttributes name => name ++ " must have exactly one 'type' attribute"
  | .duplicateArgument name => "duplicate " ++ name
  | .missingArgument position => "missing arg" ++ toString position
  | .unknownArgumentType type => "unknown argument type '" ++ type ++ "'"
  | .instruction source => source.message

inductive Error where
  | malformed
  | unexpectedRoot (name : String)
  | missingLanguage
  | unsupportedLanguage (language : String)
  | unexpectedAttribute (element name : String)
  | unexpectedElement (name : String)
  | missingAttribute (name : String)
  | invalidOrder (text : String)
  | duplicateOrder (order : Nat)
  | inInstruction (order : Nat) (fault : Fault)
deriving DecidableEq, Repr

namespace Error

def message : Error → String
  | .malformed => "malformed XML"
  | .unexpectedRoot name => "root element must be 'program', found '" ++ name ++ "'"
  | .missingLanguage => "program element has no 'language' attribute"
  | .unsupportedLanguage language => "unsupported language '" ++ language ++ "'"
  | .unexpectedAttribute element name =>
    "unexpected attribute '" ++ name ++ "' on '" ++ element ++ "'"
  | .unexpectedElement name => "unexpected element '" ++ name ++ "'"
  | .missingAttribute name => "instruction is missing the '" ++ name ++ "' attribute"
  | .invalidOrder text => "invalid instruction order '" ++ text ++ "'"
  | .duplicateOrder order => "duplicate instruction order " ++ toString order
  | .inInstruction order fault => "instruction " ++ toString order ++ ": " ++ fault.message

def errorClass : Error → ErrorClass
  | .malformed => .sourceFormat
  | _ => .sourceStructure

end Error

/-! ## Parts of the tree -/

/-- The elements among the children of an element. -/
def elements (nodes : List Node) : List Element :=
  nodes.filterMap fun
    | .element name attributes children => some { name, attributes, children }
    | _ => none

/-- The text of an argument, which is its first child. What follows an aside or an element is not
part of it. -/
def firstText : List Node → String
  | .text s :: _ => s
  | _ => ""

/-- Refuses the first attribute whose name is not among the given ones. -/
def checkAttributes (e : Element) (allowed : List String) : Except Error Unit :=
  match e.attributes.find? fun a => !allowed.contains a.name with
  | some a => .error (.unexpectedAttribute e.name a.name)
  | none => .ok ()

def requireValue (e : Element) (name : String) (missing : Error) : Except Error String :=
  match valueOf? e.attributes name with
  | some value => .ok value
  | none => .error missing

/-! ## Arguments -/

/-- Reads the text of an argument according to its type. -/
def readOperand (type text : String) : Except Fault Operand :=
  match type with
  | "var" => ((Variable.ofText text).map .var).mapError .instruction
  | "label" => .ok (.label (Text.trim text))
  | "type" => ((Readable.ofName (Text.trim text)).map fun r => .type r.kind).mapError .instruction
  | _ =>
    match Kind.ofName? type with
    | some k => ((Value.ofText k text).map .const).mapError .instruction
    | none => .error (.unknownArgumentType type)

def argumentNames : List String := ["arg1", "arg2", "arg3"]

/-- The value of the `type` of an argument, which is its only attribute. -/
def argumentType (e : Element) : Except Fault String :=
  match e.attributes with
  | [a] => if a.name = "type" then .ok a.value else .error (.argumentAttributes e.name)
  | _ => .error (.argumentAttributes e.name)

/-- Adds an argument to those read before it, each with its position counted from 0. -/
def addArgument (filled : List (Nat × Operand)) (e : Element) :
    Except Fault (List (Nat × Operand)) :=
  match argumentNames.findIdx? (· == e.name) with
  | none => .error (.unexpectedArgument e.name)
  | some position => do
    let type ← argumentType e
    if (filled.lookup position).isSome then throw (.duplicateArgument e.name)
    let operand ← readOperand type (firstText e.children)
    return (position, operand) :: filled

/-- The operands in the order of their positions, which have to be the first ones. -/
def arrange (filled : List (Nat × Operand)) : Except Fault (List Operand) :=
  (List.range filled.length).mapM fun position =>
    match filled.lookup position with
    | some operand => .ok operand
    | none => .error (.missingArgument (position + 1))

def readArguments (children : List Node) : Except Fault (List Operand) := do
  arrange (← (elements children).foldlM addArgument [])

/-! ## Instructions -/

/-- Reads the number of an instruction: a positive 64-bit number with an optional plus. -/
def orderOf? (text : String) : Option Nat :=
  let digits :=
    match Text.trimChars text.toList with
    | '+' :: cs => cs
    | cs => cs
  (Text.natural? 10 digits).filter fun n => 0 < n && n < UInt64.size

def readOrder (text : String) : Except Error Nat :=
  match orderOf? text with
  | some order => .ok order
  | none => .error (.invalidOrder text)

def readBody (opcode : String) (children : List Node) : Except Fault Instruction := do
  let op ← (Opcode.ofMnemonic (Text.trim opcode)).mapError .instruction
  let operands ← readArguments children
  (Instruction.ofOperands op operands).mapError .instruction

/-- Reads an element as an instruction with its number. -/
def readInstruction (e : Element) : Except Error (Nat × Instruction) := do
  if e.name ≠ "instruction" then throw (.unexpectedElement e.name)
  checkAttributes e ["order", "opcode"]
  let order ← requireValue e "order" (.missingAttribute "order")
  let opcode ← requireValue e "opcode" (.missingAttribute "opcode")
  let order ← readOrder order
  let i ← (readBody opcode e.children).mapError (.inInstruction order)
  return (order, i)

/-- Adds an instruction to those read before it. -/
def addInstruction (read : List (Nat × Instruction)) (e : Element) :
    Except Error (List (Nat × Instruction)) := do
  let (order, i) ← readInstruction e
  if (read.lookup order).isSome then throw (.duplicateOrder order)
  return (order, i) :: read

/-! ## Programs -/

def checkRoot (root : Element) : Except Error Unit := do
  if root.name ≠ "program" then throw (.unexpectedRoot root.name)
  let value ← requireValue root "language" .missingLanguage
  if !Text.sameIgnoringCase value language then throw (.unsupportedLanguage value)
  checkAttributes root ["language", "name", "description"]

/-- The program that a tree describes. -/
def ofElement (root : Element) : Except Error Program := do
  checkRoot root
  let read ← (elements root.children).foldlM addInstruction []
  return (read.mergeSort fun a b => a.1 ≤ b.1).map Prod.snd

/-- Reads the document of a program. -/
def load (document : String) : Except Error Program :=
  match Element.parse? document with
  | some root => ofElement root
  | none => .error .malformed

end ThreeAddress.Document
