import ThreeAddress.Instruction

/-!
# Writing a program as an XML document

The instructions are numbered from 1 in the order of the program, and each operand is an element
with its type and its text. The texts are the ones that `Document.Loader` reads.
-/

namespace ThreeAddress.Document

def language : String := "IPPcode22"

/-- The `type` of an operand. -/
def typeName : Operand → String
  | .var _ => "var"
  | .const c => c.kind.name
  | .label _ => "label"
  | .type _ => "type"

/-- The text of an operand, before markup is escaped. -/
def content : Operand → String
  | .var v => v.text
  | .const c => c.literalText
  | .label name => name
  | .type k => k.name

def escapeChar : Char → List Char
  | '&' => "&amp;".toList
  | '<' => "&lt;".toList
  | '>' => "&gt;".toList
  | '"' => "&quot;".toList
  | c => [c]

/-- A text with references in the place of the characters that would be markup. -/
def escape (s : String) : String := String.ofList (s.toList.flatMap escapeChar)

def printArgument (o : Operand) (position : Nat) : String :=
  let name := "arg" ++ toString position
  "    <" ++ name ++ " type=\"" ++ typeName o ++ "\">" ++ escape (content o) ++ "</" ++ name ++ ">\n"

def printInstruction (i : Instruction) (order : Nat) : String :=
  let head :=
    "  <instruction order=\"" ++ toString order ++ "\" opcode=\"" ++ i.opcode.mnemonic ++ "\""
  match i.operands with
  | [] => head ++ "/>\n"
  | os =>
    head ++ ">\n" ++ String.join ((os.zipIdx 1).map fun (o, position) => printArgument o position) ++
      "  </instruction>\n"

/-- The document of a program. -/
def print (program : Program) : String :=
  "<?xml version=\"1.0\" encoding=\"UTF-8\"?>\n<program language=\"" ++ language ++ "\">\n" ++
    String.join ((program.zipIdx 1).map fun (i, order) => printInstruction i order) ++
    "</program>\n"

end ThreeAddress.Document
