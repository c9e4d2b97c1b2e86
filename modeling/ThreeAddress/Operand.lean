import ThreeAddress.Value

/-!
# Operands

A variable is a name in one of the three frames. A symbol is what can be evaluated: a variable or a
constant. An operand is what a front end delivers for one position of an instruction, and an
`OperandKind` is what an opcode wants there.
-/

namespace ThreeAddress

/-! ## Variables -/

inductive FrameName where
  | global
  | local
  | temporary
deriving DecidableEq, Repr

namespace FrameName

def text : FrameName → String
  | .global => "GF"
  | .local => "LF"
  | .temporary => "TF"

def ofText? : String → Option FrameName
  | "GF" => some .global
  | "LF" => some .local
  | "TF" => some .temporary
  | _ => none

end FrameName

structure Variable where
  frame : FrameName
  name : String
deriving DecidableEq, Repr

namespace Variable

def text (v : Variable) : String := v.frame.text ++ "@" ++ v.name

/-- Cuts a text at its first `@` and reads what stands before it as a frame. -/
def split? (s : String) : Option Variable := do
  let (frame, name) ← Text.splitAtFirst? '@' s.toList
  let frame ← FrameName.ofText? (String.ofList frame)
  return { frame, name := String.ofList name }

/-- Reads a variable with blank space around it. Any non-empty name will do. -/
def ofText? (s : String) : Option Variable :=
  (split? (Text.trim s)).filter (!·.name.isEmpty)

end Variable

/-! ## Symbols and operands -/

inductive Symbol where
  | var (v : Variable)
  | const (c : Value)
deriving DecidableEq, Repr

/-- What an opcode expects at one position. -/
inductive OperandKind where
  | var
  | symbol
  | label
  | type
deriving DecidableEq, Repr

def OperandKind.name : OperandKind → String
  | .var => "var"
  | .symbol => "symbol"
  | .label => "label"
  | .type => "type"

inductive Operand where
  | var (v : Variable)
  | const (c : Value)
  | label (name : String)
  | type (k : Kind)
deriving DecidableEq, Repr

namespace Operand

/-- What an error message calls the operand. -/
def description : Operand → String
  | .var _ => "var"
  | .const _ => "constant"
  | .label _ => "label"
  | .type _ => "type"

def text : Operand → String
  | .var v => v.text
  | .const c => c.literal
  | .label name => name
  | .type k => k.name

def ofSymbol : Symbol → Operand
  | .var v => .var v
  | .const c => .const c

/-- Whether an operand can stand where the given kind is expected. -/
def fits : OperandKind → Operand → Bool
  | .var, .var _ => true
  | .symbol, .var _ => true
  | .symbol, .const _ => true
  | .label, .label _ => true
  | .type, .type k => k.readable?.isSome
  | _, _ => false

end Operand

end ThreeAddress
