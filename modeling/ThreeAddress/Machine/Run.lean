import ThreeAddress.Machine.Step

/-!
# Running

`advance` executes the instruction at which a machine stands, `execute` goes on until the program
ends, and `run` does all that belongs to one program. A program may run forever, so `execute` is
given the number of instructions after which it stops; if it stops for that, its answer is
`running`, and more instructions go on from the machine that it returns.
-/

namespace ThreeAddress

/-- How a program ends without an error. -/
inductive Termination where
  /-- The machine went past the last instruction. -/
  | completed
  | exit (code : Nat)
deriving DecidableEq, Repr

def Termination.exitCode : Termination → Nat
  | .completed => 0
  | .exit code => code

inductive Progress where
  | running
  | ended (how : Termination)
  | failed (e : RuntimeError)
deriving DecidableEq, Repr

namespace Machine

/-- Counts an instruction and moves on from it. EXIT leaves the machine where it stands. -/
def follow (m : Machine) : Flow → Machine × Progress
  | .next => ({ m with executed := m.executed + 1, pc := m.pc + 1 }, .running)
  | .jump target => ({ m with executed := m.executed + 1, pc := target }, .running)
  | .exit code => ({ m with executed := m.executed + 1 }, .ended (.exit code))

/-- Executes the next instruction, if there is one. -/
def advance (m : Machine) : Machine × Progress :=
  match m.code[m.pc]? with
  | none => (m, .ended .completed)
  | some i =>
    match (Action.step i).run m with
    | .ok flow m => m.follow flow
    | .error e m => (m, .failed e)

/-- Executes at most `fuel` instructions from where the machine stands. -/
def execute : Nat → Machine → Machine × Progress
  | 0, m => (m, .running)
  | fuel + 1, m =>
    match m.advance with
    | (m, .running) => execute fuel m
    | done => done

/-- Runs a program from its start and flushes the streams at its end. A program that cannot be loaded
is not started, and an error of the program counts before an error of the flush. -/
def run (fuel : Nat) (m : Machine) (program : Program) : Machine × Progress :=
  match m.ingest program with
  | (m, .error e) => (m, .failed e)
  | (m, .ok ()) =>
    match m.execute fuel with
    | (m, .ended how) =>
      match m.flush with
      | .ok () => (m, .ended how)
      | .error e => (m, .failed e)
    | other => other

end Machine

end ThreeAddress
