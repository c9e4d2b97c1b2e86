import ThreeAddress.Machine.State

/-!
# Snapshots

The text of a machine's state that BREAK writes: where it stands, then its frames, stacks and label
table, each on a line. Frames and labels are listed in the order of their names, stacks from the
bottom to the top.
-/

namespace ThreeAddress

def braced (items : List String) : String := "\x7b" ++ ", ".intercalate items ++ "\x7d"

def bracketed (items : List String) : String := "[" ++ ", ".intercalate items ++ "]"

def Frame.entryText (name : String) : Option Value → String
  | some a => name ++ "=" ++ a.literal
  | none => name ++ "=<unset>"

def Frame.text (f : Frame) : String :=
  braced (f.entries.map fun (name, slot) => entryText name slot)

namespace Machine

def standText (m : Machine) : String :=
  let next :=
    match m.code[m.pc]? with
    | some i => i.text
    | none => "end of program"
  "pc: " ++ toString m.pc ++ " (" ++ next ++ "), " ++ toString m.executed ++
    " instruction(s) executed\n"

/-- The lines of the local frames, the top one first, each with its height in the stack. -/
def localsText : List Frame → String
  | [] => ""
  | f :: below => "LF[" ++ toString below.length ++ "]: " ++ Frame.text f ++ "\n" ++ localsText below

def framesText (fs : Frames) : String :=
  "GF: " ++ Frame.text fs.global ++ "\n" ++
    (if fs.locals.isEmpty then "LF: <empty stack>\n" else localsText fs.locals) ++
    (match fs.temporary with
    | some f => "TF: " ++ Frame.text f ++ "\n"
    | none => "TF: <undefined>\n")

def snapshot (m : Machine) : String :=
  m.standText ++ framesText m.frames ++
    "data stack: " ++ bracketed (m.data.reverse.map Value.literal) ++ "\n" ++
    "call stack: " ++ bracketed (m.calls.reverse.map fun position => toString position) ++ "\n" ++
    "labels: " ++ braced (m.labels.entries.map fun (name, position) =>
      name ++ "=" ++ toString position) ++ "\n"

end Machine

end ThreeAddress
