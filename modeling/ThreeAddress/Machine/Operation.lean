import ThreeAddress.Machine.Fault

/-!
# Operations on values

What the computing instructions do with the values of their operands, apart from any machine.
Integers wrap around at 64 bits, and strings are counted in characters.
-/

namespace ThreeAddress

/-- The quotient rounded down. -/
def floorDiv (a b : Int64) : Int64 :=
  if a % b ≠ 0 ∧ (decide (a < 0) ≠ decide (b < 0)) then a / b - 1 else a / b

/-- Equality as an operand of the given opcode. -/
def equality (op : Opcode) (a b : Value) : Except Fault Bool :=
  match a.equals b with
  | some r => .ok r
  | none => .error (.operandType op [a.kind, b.kind])

/-- Whether two values stand in the given order. -/
def inOrder (op : Opcode) (wanted : Ordering) (a b : Value) : Except Fault Bool :=
  match a.compare b with
  | some o => .ok (o == wanted)
  | none => .error (.operandType op [a.kind, b.kind])

/-- The character of a string at an index counted from 0. -/
def charAt (s : String) (index : Int64) : Except Fault Char :=
  match if 0 ≤ index.toInt then s.toList[index.toInt.toNat]? else none with
  | some c => .ok c
  | none => .error (.indexOutOfRange index s.length)

/-- The character with the given code. -/
def charOfCode (code : Int64) : Except Fault Char :=
  if 0 ≤ code.toInt ∧ code.toInt.toNat.isValidChar then .ok (Char.ofNat code.toInt.toNat)
  else .error (.invalidCodePoint code)

def UnaryOp.apply (op : UnaryOp) (a : Value) : Except Fault Value :=
  match op, a with
  | .not, .bool x => .ok (.bool !x)
  | .int2char, .int n => do return .string (String.singleton (← charOfCode n))
  | .strlen, .string s => .ok (.int (Int64.ofNat s.length))
  | _, _ => .error (.operandType op.opcode [a.kind])

def BinaryOp.apply (op : BinaryOp) (a b : Value) : Except Fault Value :=
  match op, a, b with
  | .add, .int x, .int y => .ok (.int (x + y))
  | .sub, .int x, .int y => .ok (.int (x - y))
  | .mul, .int x, .int y => .ok (.int (x * y))
  | .idiv, .int x, .int y => if y = 0 then .error .divisionByZero else .ok (.int (floorDiv x y))
  | .lt, a, b => do return .bool (← inOrder .lt .lt a b)
  | .gt, a, b => do return .bool (← inOrder .gt .gt a b)
  | .eq, a, b => do return .bool (← equality .eq a b)
  | .and, .bool x, .bool y => .ok (.bool (x && y))
  | .or, .bool x, .bool y => .ok (.bool (x || y))
  | .stri2int, .string s, .int i => do return .int (Int64.ofNat (← charAt s i).toNat)
  | .concat, .string s, .string t => .ok (.string (s ++ t))
  | .getChar, .string s, .int i => do return .string (String.singleton (← charAt s i))
  | _, _, _ => .error (.operandType op.opcode [a.kind, b.kind])

/-- The first character of a string that has one. -/
def firstChar? : Value → Option Char
  | .string s => s.toList.head?
  | _ => none

/-- Puts the first character of the replacement at an index of the target. An empty replacement is no
operand at all, which is found before the index is looked at. -/
def replaceChar (target index replacement : Value) : Except Fault Value :=
  match target, index, firstChar? replacement with
  | .string s, .int i, some c => do
    let _ ← charAt s i
    return .string (String.ofList (s.toList.set i.toInt.toNat c))
  | _, _, _ => .error (.operandType .setChar [target.kind, index.kind, replacement.kind])

/-- The exit code that a value stands for. -/
def exitCode : Value → Except Fault Nat
  | .int n =>
    if 0 ≤ n.toInt ∧ n.toInt ≤ 49 then .ok n.toInt.toNat else .error (.exitCodeOutOfRange n)
  | a => .error (.operandType .exit [a.kind])

/-- What TYPE makes of a symbol: the name of its kind, or the empty text if it has no value. -/
def typeText : Option Value → Value
  | some a => .string a.kind.name
  | none => .string ""

end ThreeAddress
