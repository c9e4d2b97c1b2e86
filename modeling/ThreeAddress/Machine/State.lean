import ThreeAddress.Machine.Frames
import ThreeAddress.Machine.Stream

/-!
# Machines

The state of a machine: its code and label table, its frames and two stacks, where it stands, and
its streams. Labels are no part of the code; the table maps a label to the position of the first
instruction after it.
-/

namespace ThreeAddress

structure Machine where
  code : Array Instruction
  labels : Table Nat
  frames : Frames
  /-- The data stack, the top first. -/
  data : List Value
  /-- The positions to return to, the top first. -/
  calls : List Nat
  /-- The position of the next instruction. -/
  pc : Nat
  /-- How many instructions have been executed. -/
  executed : Nat
  input : Input
  /-- Where WRITE writes. -/
  output : Sink
  /-- Where DPRINT and BREAK write. -/
  diagnostic : Sink
deriving DecidableEq

namespace Machine

/-- A machine without code, attached to the given streams. -/
def fresh (input : Input) (output diagnostic : Sink) : Machine :=
  { code := #[], labels := .empty, frames := .initial, data := [], calls := [], pc := 0,
    executed := 0, input, output, diagnostic }

/-! ## Loading code -/

/-- Adds instructions to the code, given the position of the first one in its program. A label
enters the table in place of the code. -/
def ingestFrom (m : Machine) (position : Nat) : Program → Machine × Except RuntimeError Unit
  | [] => (m, .ok ())
  | .label name :: rest =>
    if m.labels.contains name then (m, .error { fault := .duplicateLabel name, position })
    else ingestFrom { m with labels := m.labels.insert name m.code.size } (position + 1) rest
  | i :: rest => ingestFrom { m with code := m.code.push i } (position + 1) rest

/-- Adds a program to the code. What stands before a repeated label is added all the same. -/
def ingest (m : Machine) (program : Program) : Machine × Except RuntimeError Unit :=
  m.ingestFrom 0 program

/-! ## Labels, errors and flushing -/

/-- The position that a label stands for. -/
def target (m : Machine) (label : String) : Except Fault Nat :=
  match m.labels.get? label with
  | some position => .ok position
  | none => .error (.undefinedLabel label)

/-- A fault at the position where the machine stands. -/
def errorHere (m : Machine) (fault : Fault) : RuntimeError := { fault, position := m.pc }

/-- Flushes the output, then the diagnostics. -/
def flush (m : Machine) : Except RuntimeError Unit :=
  (do m.output.flush; m.diagnostic.flush).mapError fun reason => m.errorHere (.writeFailed reason)

end Machine

end ThreeAddress
