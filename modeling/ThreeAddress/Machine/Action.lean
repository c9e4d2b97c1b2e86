import ThreeAddress.Machine.State

/-!
# Actions

An action works on a machine in place and gives a result or an error. An error undoes nothing: what
an action changed before it failed stays changed. Every error carries the position at which the
machine stood when it arose.
-/

namespace ThreeAddress

abbrev Action (α : Type) := EStateM RuntimeError Machine α

namespace Action

/-- Fails where the machine stands. -/
def fail {α : Type} (fault : Fault) : Action α := do throw ((← get).errorHere fault)

/-- Goes on with a result, or fails with its fault. -/
def check {α : Type} : Except Fault α → Action α
  | .ok a => return a
  | .error fault => fail fault

/-- Looks something up in the machine. -/
def ask {α : Type} (look : Machine → Except Fault α) : Action α := do check (look (← get))

/-! ## Frames and variables -/

/-- Changes the frames, or fails and leaves them as they are. -/
def onFrames (change : Frames → Except Fault Frames) : Action Unit := do
  let frames ← ask fun m => change m.frames
  modify ({ · with frames })

def createFrame : Action Unit := modify fun m => { m with frames := m.frames.create }

def pushFrame : Action Unit := onFrames Frames.push

def popFrame : Action Unit := onFrames Frames.pop

/-- Declares a variable without a value. -/
def declare (v : Variable) : Action Unit := onFrames (·.declare v)

/-- Gives a declared variable a value. -/
def set (v : Variable) (a : Value) : Action Unit := onFrames (·.set v a)

def eval (s : Symbol) : Action Value := ask (·.frames.eval s)

def look (s : Symbol) : Action (Option Value) := ask (·.frames.look s)

def valueOf (v : Variable) : Action Value := ask (·.frames.valueOf v)

/-! ## Labels and stacks -/

def target (label : String) : Action Nat := ask (·.target label)

/-- Puts the position after the present one on the call stack. -/
def pushCall : Action Unit := modify fun m => { m with calls := (m.pc + 1) :: m.calls }

def popCall : Action Nat := do
  match (← get).calls with
  | position :: calls =>
    modify ({ · with calls })
    return position
  | [] => fail .emptyCallStack

def pushData (a : Value) : Action Unit := modify fun m => { m with data := a :: m.data }

def topData : Action Value := ask fun m =>
  match m.data with
  | a :: _ => .ok a
  | [] => .error .emptyDataStack

def dropData : Action Unit := modify fun m => { m with data := m.data.tail }

/-! ## Streams -/

/-- Takes a line off the input. It is gone even if it cannot be read. -/
def readLine : Action (Option String) := do
  let (input, line) := (← get).input.takeLine
  modify ({ · with input })
  check (line.mapError .readFailed)

def writeOutput (s : String) : Action Unit := do
  let output ← ask fun m => (m.output.write s).mapError .writeFailed
  modify ({ · with output })

def writeDiagnostic (s : String) : Action Unit := do
  let diagnostic ← ask fun m => (m.diagnostic.write s).mapError .writeFailed
  modify ({ · with diagnostic })

end Action

end ThreeAddress
