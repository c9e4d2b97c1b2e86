import ThreeAddress.Operand

/-!
# Opcodes

The 35 opcodes with their mnemonics and signatures. A mnemonic may be written in any case.
-/

namespace ThreeAddress

inductive Opcode where
  | move | createFrame | pushFrame | popFrame | defVar | call | ret
  | pushs | pops
  | add | sub | mul | idiv | lt | gt | eq | and | or | not
  | int2char | stri2int
  | read | write
  | concat | strlen | getChar | setChar
  | type
  | label | jump | jumpIfEq | jumpIfNeq | exit
  | dprint | brk
deriving DecidableEq, Repr

namespace Opcode

/-- The opcodes in the order of their numbers. -/
def all : List Opcode :=
  [.move, .createFrame, .pushFrame, .popFrame, .defVar, .call, .ret, .pushs, .pops, .add, .sub,
    .mul, .idiv, .lt, .gt, .eq, .and, .or, .not, .int2char, .stri2int, .read, .write, .concat,
    .strlen, .getChar, .setChar, .type, .label, .jump, .jumpIfEq, .jumpIfNeq, .exit, .dprint, .brk]

def mnemonic : Opcode → String
  | .move => "MOVE"
  | .createFrame => "CREATEFRAME"
  | .pushFrame => "PUSHFRAME"
  | .popFrame => "POPFRAME"
  | .defVar => "DEFVAR"
  | .call => "CALL"
  | .ret => "RETURN"
  | .pushs => "PUSHS"
  | .pops => "POPS"
  | .add => "ADD"
  | .sub => "SUB"
  | .mul => "MUL"
  | .idiv => "IDIV"
  | .lt => "LT"
  | .gt => "GT"
  | .eq => "EQ"
  | .and => "AND"
  | .or => "OR"
  | .not => "NOT"
  | .int2char => "INT2CHAR"
  | .stri2int => "STRI2INT"
  | .read => "READ"
  | .write => "WRITE"
  | .concat => "CONCAT"
  | .strlen => "STRLEN"
  | .getChar => "GETCHAR"
  | .setChar => "SETCHAR"
  | .type => "TYPE"
  | .label => "LABEL"
  | .jump => "JUMP"
  | .jumpIfEq => "JUMPIFEQ"
  | .jumpIfNeq => "JUMPIFNEQ"
  | .exit => "EXIT"
  | .dprint => "DPRINT"
  | .brk => "BREAK"

/-- What each position of the opcode's operands expects. -/
def signature : Opcode → List OperandKind
  | .createFrame | .pushFrame | .popFrame | .ret | .brk => []
  | .defVar | .pops => [.var]
  | .call | .label | .jump => [.label]
  | .pushs | .write | .exit | .dprint => [.symbol]
  | .move | .not | .int2char | .strlen | .type => [.var, .symbol]
  | .read => [.var, .type]
  | .add | .sub | .mul | .idiv | .lt | .gt | .eq | .and | .or | .stri2int | .concat | .getChar
  | .setChar => [.var, .symbol, .symbol]
  | .jumpIfEq | .jumpIfNeq => [.label, .symbol, .symbol]

def arity (op : Opcode) : Nat := op.signature.length

/-- The opcode with the given mnemonic, in any case. -/
def ofMnemonic? (s : String) : Option Opcode :=
  all.find? fun op => Text.sameIgnoringCase op.mnemonic s

end Opcode

end ThreeAddress
