import ThreeAddress.Instruction

/-!
# Words of source text

How one word is read as an operand. The kind that the opcode expects decides what a word may be, and
blank space never stands inside a word, so nothing is trimmed here.
-/

namespace ThreeAddress.Source

/-! ## Identifiers -/

def isIdentifierStart (c : Char) : Bool :=
  c.isAlpha || ['_', '-', '$', '&', '%', '*', '!', '?'].contains c

def isIdentifierChar (c : Char) : Bool := isIdentifierStart c || c.isDigit

/-- The names of variables and labels. -/
def isIdentifier (s : String) : Bool :=
  match s.toList with
  | [] => false
  | c :: cs => isIdentifierStart c && cs.all isIdentifierChar

/-! ## Operands -/

def variableOf? (word : String) : Option Variable :=
  (Variable.split? word).filter fun v => isIdentifier v.name

/-- The constant of the given kind with the given text after its `@`. -/
def literalOf? (k : Kind) (text : String) : Option Value :=
  match k with
  | .int => (Text.sourceInt? text).map .int
  | .bool => (Value.boolOfText? text).map .bool
  | .string =>
    if Text.isStringLiteral text then some (.string (Text.decodeEscapes text)) else none
  | .nil => if text = "nil" then some .nil else none

def constantOf? (word : String) : Option Value := do
  let (k, text) ← Text.splitAtFirst? '@' word.toList
  let k ← Kind.ofName? (String.ofList k)
  literalOf? k (String.ofList text)

/-- Reads a word where an operand of the given kind is expected. -/
def operandOf? (expected : OperandKind) (word : String) : Option Operand :=
  match expected with
  | .var => (variableOf? word).map .var
  | .symbol => ((variableOf? word).map .var).or ((constantOf? word).map .const)
  | .label => if isIdentifier word then some (.label word) else none
  | .type => ((Kind.ofName? word).bind Kind.readable?).map fun r => .type r.kind

end ThreeAddress.Source
