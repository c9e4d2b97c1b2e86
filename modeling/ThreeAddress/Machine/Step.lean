import ThreeAddress.Machine.Action
import ThreeAddress.Machine.Operation
import ThreeAddress.Machine.Snapshot

/-!
# One step

`step` is what an instruction does to a machine, and where control goes after it. Each instruction
looks at all that it needs before it changes anything, except READ: the line that it reads is gone
even if there is no variable to take it.
-/

namespace ThreeAddress

/-- Where control goes after an instruction. -/
inductive Flow where
  | next
  | jump (target : Nat)
  | exit (code : Nat)
deriving DecidableEq, Repr

namespace Action

/-- Compares two symbols for equality, for the given opcode. -/
def equal (op : Opcode) (left right : Symbol) : Action Bool := do
  let a ← eval left
  let b ← eval right
  check (equality op a b)

/-- Jumps to a label if two symbols are equal or not, as `wanted` says. The label is looked up
first. -/
def branch (op : Opcode) (wanted : Bool) (label : String) (left right : Symbol) : Action Flow := do
  let position ← target label
  return if (← equal op left right) = wanted then .jump position else .next

/-- Executes an instruction, without moving on from it. -/
def step : Instruction → Action Flow
  | .move dst src => do
    set dst (← eval src)
    return .next
  | .createFrame => do
    createFrame
    return .next
  | .pushFrame => do
    pushFrame
    return .next
  | .popFrame => do
    popFrame
    return .next
  | .defVar v => do
    declare v
    return .next
  | .call label => do
    let position ← target label
    pushCall
    return .jump position
  | .ret => return .jump (← popCall)
  | .pushs src => do
    pushData (← eval src)
    return .next
  | .pops dst => do
    set dst (← topData)
    dropData
    return .next
  | .unary op dst src => do
    let a ← eval src
    set dst (← check (op.apply a))
    return .next
  | .binary op dst left right => do
    let a ← eval left
    let b ← eval right
    set dst (← check (op.apply a b))
    return .next
  | .read dst k => do
    set dst (Value.ofLine k (← readLine))
    return .next
  | .write src => do
    writeOutput (← eval src).printed
    return .next
  | .setChar dst index replacement => do
    let s ← valueOf dst
    let i ← eval index
    let r ← eval replacement
    set dst (← check (replaceChar s i r))
    return .next
  | .type dst src => do
    set dst (typeText (← look src))
    return .next
  | .label _ => return .next
  | .jump label => return .jump (← target label)
  | .jumpIfEq label left right => branch .jumpIfEq true label left right
  | .jumpIfNeq label left right => branch .jumpIfNeq false label left right
  | .exit code => do
    let a ← eval code
    return .exit (← check (exitCode a))
  | .dprint src => do
    writeDiagnostic ((← eval src).printed ++ "\n")
    return .next
  | .brk => do
    writeDiagnostic (← get).snapshot
    return .next

end Action

end ThreeAddress
