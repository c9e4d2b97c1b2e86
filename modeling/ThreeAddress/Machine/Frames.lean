import ThreeAddress.Machine.Fault
import ThreeAddress.Table

/-!
# Frames

The variables of a running program: one global frame, a stack of local frames of which only the top
can be named, and at most one temporary frame. A variable that is declared and has no value yet is
bound to none.
-/

namespace ThreeAddress

abbrev Frame := Table (Option Value)

structure Frames where
  global : Frame
  /-- The local frames, the top one first. -/
  locals : List Frame
  temporary : Option Frame
deriving DecidableEq

namespace Frames

def initial : Frames := { global := .empty, locals := [], temporary := none }

/-! ## Frames by name -/

def get? (fs : Frames) : FrameName → Option Frame
  | .global => some fs.global
  | .local => fs.locals.head?
  | .temporary => fs.temporary

/-- Puts a frame in the place of the one with the given name, which has to exist. -/
def replace (fs : Frames) (name : FrameName) (f : Frame) : Frames :=
  match name, fs.locals with
  | .global, _ => { fs with global := f }
  | .local, [] => fs
  | .local, _ :: locals => { fs with locals := f :: locals }
  | .temporary, _ => { fs with temporary := some f }

def get (fs : Frames) (name : FrameName) : Except Fault Frame :=
  match fs.get? name with
  | some f => .ok f
  | none => .error (.frameNotFound name)

/-! ## Moving frames -/

/-- Puts an empty frame in the place of the temporary one. -/
def create (fs : Frames) : Frames := { fs with temporary := some .empty }

/-- Moves the temporary frame to the top of the local frames. -/
def push (fs : Frames) : Except Fault Frames :=
  match fs.temporary with
  | some f => .ok { fs with locals := f :: fs.locals, temporary := none }
  | none => .error (.frameNotFound .temporary)

/-- Moves the top local frame to the place of the temporary one. -/
def pop (fs : Frames) : Except Fault Frames :=
  match fs.locals with
  | f :: locals => .ok { fs with locals, temporary := some f }
  | [] => .error (.frameNotFound .local)

/-! ## Variables -/

/-- Whether a variable is declared in its frame, which has to exist. -/
def declares (fs : Frames) (v : Variable) : Except Fault Bool := do
  return (← fs.get v.frame).contains v.name

/-- What a declared variable is bound to. -/
def slot (fs : Frames) (v : Variable) : Except Fault (Option Value) := do
  match (← fs.get v.frame).get? v.name with
  | some slot => .ok slot
  | none => .error (.undeclaredVariable v)

/-- Declares a variable without a value. -/
def declare (fs : Frames) (v : Variable) : Except Fault Frames := do
  let f ← fs.get v.frame
  if f.contains v.name then .error (.redefinition v)
  else .ok (fs.replace v.frame (f.insert v.name none))

/-- Gives a declared variable a value. -/
def set (fs : Frames) (v : Variable) (a : Value) : Except Fault Frames := do
  let f ← fs.get v.frame
  if f.contains v.name then .ok (fs.replace v.frame (f.insert v.name (some a)))
  else .error (.undeclaredVariable v)

/-- The value of a variable, which has to have one. -/
def valueOf (fs : Frames) (v : Variable) : Except Fault Value := do
  match ← fs.slot v with
  | some a => .ok a
  | none => .error (.unsetVariable v)

/-! ## Symbols -/

/-- What a symbol stands for: nothing, if it is a variable without a value. -/
def look (fs : Frames) : Symbol → Except Fault (Option Value)
  | .const c => .ok (some c)
  | .var v => fs.slot v

/-- The value of a symbol. -/
def eval (fs : Frames) : Symbol → Except Fault Value
  | .const c => .ok c
  | .var v => fs.valueOf v

end Frames

end ThreeAddress
