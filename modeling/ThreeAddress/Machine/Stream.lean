import ThreeAddress.Text.Utf8

/-!
# Streams

The input of a machine is a list of bytes that is read line by line; a machine writes texts to its
sinks. A sink may take only so many bytes, and its flush may fail.
-/

namespace ThreeAddress

/-! ## Input -/

structure Input where
  /-- The bytes that have not been read. -/
  rest : List UInt8
  /-- Why reading fails, if it does. -/
  fault : Option String
deriving DecidableEq

namespace Input

def ofBytes (bytes : List UInt8) : Input := { rest := bytes, fault := none }

def newline : UInt8 := 10

/-- Takes one line off the input, without its end; there is none at the end of the input. A line that
is no UTF-8 is an error, and it is taken off as well. -/
def takeLine (i : Input) : Input × Except String (Option String) :=
  match i.fault, i.rest with
  | some reason, _ => (i, .error reason)
  | none, [] => (i, .ok none)
  | none, bytes =>
    let line := bytes.takeWhile (· != newline)
    let rest := (bytes.dropWhile (· != newline)).drop 1
    ({ i with rest },
      match Text.ofUtf8? line with
      | some s => .ok (some s)
      | none => .error Text.notUtf8)

end Input

/-! ## Output -/

structure Sink where
  /-- All that has been written. -/
  text : String
  /-- How many bytes the sink takes, if that is limited. -/
  limit : Option Nat
  flushFails : Bool
deriving DecidableEq, Repr

namespace Sink

def unlimited : Sink := { text := "", limit := none, flushFails := false }

/-- Writes a text, or nothing at all if it does not fit. The empty text is never refused. -/
def write (k : Sink) (s : String) : Except String Sink :=
  if s.isEmpty || k.limit.all (k.text.utf8ByteSize + s.utf8ByteSize ≤ ·) then
    .ok { k with text := k.text ++ s }
  else .error "sink full"

def flush (k : Sink) : Except String Unit :=
  if k.flushFails then .error "flush refused" else .ok ()

end Sink

end ThreeAddress
