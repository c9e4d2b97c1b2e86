import ThreeAddress.ErrorClass
import ThreeAddress.Opcode

/-!
# Instructions

An instruction holds operands of the kinds that its opcode wants, so nothing past
`Instruction.ofOperands` has to look at an operand list again. The instructions that compute a value
from one or two symbols and store it are the two families `unary` and `binary`.
-/

namespace ThreeAddress

/-! ## Errors -/

/-- Why text or operands make no instruction. -/
inductive InstructionError where
  | unknownOpcode (name : String)
  | arityMismatch (op : Opcode) (found : Nat)
  /-- The operand at a position, counted from 1, does not fit. -/
  | operandMismatch (op : Opcode) (position : Nat) (expected : OperandKind) (found : Operand)
  | invalidLiteral (k : Kind) (text : String)
  | invalidVariable (text : String)
  | unknownTypeName (name : String)
deriving DecidableEq, Repr

namespace InstructionError

def message : InstructionError → String
  | .unknownOpcode name => "unknown opcode '" ++ name ++ "'"
  | .arityMismatch op found =>
    op.mnemonic ++ " expects " ++ toString op.arity ++ " operand(s), found " ++ toString found
  | .operandMismatch op position expected found =>
    op.mnemonic ++ " operand " ++ toString position ++ " must be a " ++ expected.name ++
      ", found a " ++ found.description
  | .invalidLiteral k text => "invalid " ++ k.name ++ " literal '" ++ text ++ "'"
  | .invalidVariable text => "invalid variable '" ++ text ++ "'"
  | .unknownTypeName name => "unknown type name '" ++ name ++ "'"

/-- On their own these errors count as faults of a program's structure. -/
def errorClass (_ : InstructionError) : ErrorClass := .sourceStructure

end InstructionError

/-! ## Checked readers of the parts -/

def Opcode.ofMnemonic (s : String) : Except InstructionError Opcode :=
  match ofMnemonic? s with
  | some op => .ok op
  | none => .error (.unknownOpcode s)

def Variable.ofText (s : String) : Except InstructionError Variable :=
  match ofText? s with
  | some v => .ok v
  | none => .error (.invalidVariable s)

def Value.ofText (k : Kind) (s : String) : Except InstructionError Value :=
  match ofText? k s with
  | some v => .ok v
  | none => .error (.invalidLiteral k s)

/-- The kind that a type operand names. -/
def Readable.ofName (s : String) : Except InstructionError Readable :=
  match (Kind.ofName? s).bind Kind.readable? with
  | some k => .ok k
  | none => .error (.unknownTypeName s)

/-! ## Instructions -/

/-- The opcodes that compute a value from one value. -/
inductive UnaryOp where
  | not | int2char | strlen
deriving DecidableEq, Repr

/-- The opcodes that compute a value from two values. -/
inductive BinaryOp where
  | add | sub | mul | idiv | lt | gt | eq | and | or | stri2int | concat | getChar
deriving DecidableEq, Repr

def UnaryOp.opcode : UnaryOp → Opcode
  | .not => .not
  | .int2char => .int2char
  | .strlen => .strlen

def BinaryOp.opcode : BinaryOp → Opcode
  | .add => .add
  | .sub => .sub
  | .mul => .mul
  | .idiv => .idiv
  | .lt => .lt
  | .gt => .gt
  | .eq => .eq
  | .and => .and
  | .or => .or
  | .stri2int => .stri2int
  | .concat => .concat
  | .getChar => .getChar

inductive Instruction where
  | move (dst : Variable) (src : Symbol)
  | createFrame
  | pushFrame
  | popFrame
  | defVar (v : Variable)
  | call (target : String)
  | ret
  | pushs (src : Symbol)
  | pops (dst : Variable)
  | unary (op : UnaryOp) (dst : Variable) (src : Symbol)
  | binary (op : BinaryOp) (dst : Variable) (left right : Symbol)
  | read (dst : Variable) (k : Readable)
  | write (src : Symbol)
  | setChar (dst : Variable) (index replacement : Symbol)
  | type (dst : Variable) (src : Symbol)
  | label (name : String)
  | jump (target : String)
  | jumpIfEq (target : String) (left right : Symbol)
  | jumpIfNeq (target : String) (left right : Symbol)
  | exit (code : Symbol)
  | dprint (src : Symbol)
  | brk
deriving DecidableEq, Repr

/-- A program is the list of its instructions, labels included. -/
abbrev Program := List Instruction

namespace Instruction

def opcode : Instruction → Opcode
  | .move .. => .move
  | .createFrame => .createFrame
  | .pushFrame => .pushFrame
  | .popFrame => .popFrame
  | .defVar _ => .defVar
  | .call _ => .call
  | .ret => .ret
  | .pushs _ => .pushs
  | .pops _ => .pops
  | .unary op .. => op.opcode
  | .binary op .. => op.opcode
  | .read .. => .read
  | .write _ => .write
  | .setChar .. => .setChar
  | .type .. => .type
  | .label _ => .label
  | .jump _ => .jump
  | .jumpIfEq .. => .jumpIfEq
  | .jumpIfNeq .. => .jumpIfNeq
  | .exit _ => .exit
  | .dprint _ => .dprint
  | .brk => .brk

def operands : Instruction → List Operand
  | .move dst src => [.var dst, .ofSymbol src]
  | .createFrame | .pushFrame | .popFrame | .ret | .brk => []
  | .defVar v => [.var v]
  | .call target => [.label target]
  | .pushs src => [.ofSymbol src]
  | .pops dst => [.var dst]
  | .unary _ dst src => [.var dst, .ofSymbol src]
  | .binary _ dst left right => [.var dst, .ofSymbol left, .ofSymbol right]
  | .read dst k => [.var dst, .type k.kind]
  | .write src => [.ofSymbol src]
  | .setChar dst index replacement => [.var dst, .ofSymbol index, .ofSymbol replacement]
  | .type dst src => [.var dst, .ofSymbol src]
  | .label name => [.label name]
  | .jump target => [.label target]
  | .jumpIfEq target left right => [.label target, .ofSymbol left, .ofSymbol right]
  | .jumpIfNeq target left right => [.label target, .ofSymbol left, .ofSymbol right]
  | .exit code => [.ofSymbol code]
  | .dprint src => [.ofSymbol src]

/-- The canonical line of source text. -/
def text (i : Instruction) : String :=
  " ".intercalate (i.opcode.mnemonic :: i.operands.map Operand.text)

/-! ## Building from operands -/

/-- The variable at a position, or the error that it is none. -/
def asVar (op : Opcode) (position : Nat) : Operand → Except InstructionError Variable
  | .var v => .ok v
  | o => .error (.operandMismatch op position .var o)

def asSymbol (op : Opcode) (position : Nat) : Operand → Except InstructionError Symbol
  | .var v => .ok (.var v)
  | .const c => .ok (.const c)
  | o => .error (.operandMismatch op position .symbol o)

def asLabel (op : Opcode) (position : Nat) : Operand → Except InstructionError String
  | .label name => .ok name
  | o => .error (.operandMismatch op position .label o)

def asReadable (op : Opcode) (position : Nat) (o : Operand) : Except InstructionError Readable :=
  match o with
  | .type k =>
    match k.readable? with
    | some r => .ok r
    | none => .error (.operandMismatch op position .type o)
  | _ => .error (.operandMismatch op position .type o)

def ofVar (op : Opcode) (make : Variable → Instruction) :
    List Operand → Except InstructionError Instruction
  | [a] => return make (← asVar op 1 a)
  | os => .error (.arityMismatch op os.length)

def ofSymbol (op : Opcode) (make : Symbol → Instruction) :
    List Operand → Except InstructionError Instruction
  | [a] => return make (← asSymbol op 1 a)
  | os => .error (.arityMismatch op os.length)

def ofLabel (op : Opcode) (make : String → Instruction) :
    List Operand → Except InstructionError Instruction
  | [a] => return make (← asLabel op 1 a)
  | os => .error (.arityMismatch op os.length)

def ofVarSymbol (op : Opcode) (make : Variable → Symbol → Instruction) :
    List Operand → Except InstructionError Instruction
  | [a, b] => return make (← asVar op 1 a) (← asSymbol op 2 b)
  | os => .error (.arityMismatch op os.length)

def ofVarType (op : Opcode) (make : Variable → Readable → Instruction) :
    List Operand → Except InstructionError Instruction
  | [a, b] => return make (← asVar op 1 a) (← asReadable op 2 b)
  | os => .error (.arityMismatch op os.length)

def ofVarSymbols (op : Opcode) (make : Variable → Symbol → Symbol → Instruction) :
    List Operand → Except InstructionError Instruction
  | [a, b, c] => return make (← asVar op 1 a) (← asSymbol op 2 b) (← asSymbol op 3 c)
  | os => .error (.arityMismatch op os.length)

def ofLabelSymbols (op : Opcode) (make : String → Symbol → Symbol → Instruction) :
    List Operand → Except InstructionError Instruction
  | [a, b, c] => return make (← asLabel op 1 a) (← asSymbol op 2 b) (← asSymbol op 3 c)
  | os => .error (.arityMismatch op os.length)

def ofNothing (op : Opcode) (i : Instruction) : List Operand → Except InstructionError Instruction
  | [] => .ok i
  | os => .error (.arityMismatch op os.length)

/-- Builds an instruction. The number of operands is checked first, then each operand from left to
right. -/
def ofOperands (op : Opcode) : List Operand → Except InstructionError Instruction :=
  match op with
  | .move => ofVarSymbol op .move
  | .createFrame => ofNothing op .createFrame
  | .pushFrame => ofNothing op .pushFrame
  | .popFrame => ofNothing op .popFrame
  | .defVar => ofVar op .defVar
  | .call => ofLabel op .call
  | .ret => ofNothing op .ret
  | .pushs => ofSymbol op .pushs
  | .pops => ofVar op .pops
  | .add => ofVarSymbols op (.binary .add)
  | .sub => ofVarSymbols op (.binary .sub)
  | .mul => ofVarSymbols op (.binary .mul)
  | .idiv => ofVarSymbols op (.binary .idiv)
  | .lt => ofVarSymbols op (.binary .lt)
  | .gt => ofVarSymbols op (.binary .gt)
  | .eq => ofVarSymbols op (.binary .eq)
  | .and => ofVarSymbols op (.binary .and)
  | .or => ofVarSymbols op (.binary .or)
  | .not => ofVarSymbol op (.unary .not)
  | .int2char => ofVarSymbol op (.unary .int2char)
  | .stri2int => ofVarSymbols op (.binary .stri2int)
  | .read => ofVarType op .read
  | .write => ofSymbol op .write
  | .concat => ofVarSymbols op (.binary .concat)
  | .strlen => ofVarSymbol op (.unary .strlen)
  | .getChar => ofVarSymbols op (.binary .getChar)
  | .setChar => ofVarSymbols op .setChar
  | .type => ofVarSymbol op .type
  | .label => ofLabel op .label
  | .jump => ofLabel op .jump
  | .jumpIfEq => ofLabelSymbols op .jumpIfEq
  | .jumpIfNeq => ofLabelSymbols op .jumpIfNeq
  | .exit => ofSymbol op .exit
  | .dprint => ofSymbol op .dprint
  | .brk => ofNothing op .brk

end Instruction

end ThreeAddress
