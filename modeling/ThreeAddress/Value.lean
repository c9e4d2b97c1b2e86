import ThreeAddress.Text.Escape
import ThreeAddress.Text.Numeral

/-!
# Values

A value is a 64-bit integer, a truth value, a text or nil. `Value.equals` and `Value.compare` are
partial: they are defined on the pairs of kinds that the comparing instructions accept.
`Value.literalText` spells a value the way constants are spelled.
-/

namespace ThreeAddress

/-! ## Kinds -/

inductive Kind where
  | int
  | bool
  | string
  | nil
deriving DecidableEq, Repr

namespace Kind

def all : List Kind := [.int, .bool, .string, .nil]

def name : Kind → String
  | .int => "int"
  | .bool => "bool"
  | .string => "string"
  | .nil => "nil"

def ofName? (s : String) : Option Kind := all.find? (·.name == s)

end Kind

/-- The kinds that READ can be asked for. -/
inductive Readable where
  | int
  | bool
  | string
deriving DecidableEq, Repr

def Readable.kind : Readable → Kind
  | .int => .int
  | .bool => .bool
  | .string => .string

def Kind.readable? : Kind → Option Readable
  | .int => some .int
  | .bool => some .bool
  | .string => some .string
  | .nil => none

/-! ## Values -/

inductive Value where
  | int (n : Int64)
  | bool (b : Bool)
  | string (s : String)
  | nil
deriving DecidableEq, Repr

namespace Value

def kind : Value → Kind
  | .int _ => .int
  | .bool _ => .bool
  | .string _ => .string
  | .nil => .nil

/-- Equality of two values. Nil can be compared with everything; other values only with values of
their own kind. -/
def equals : Value → Value → Option Bool
  | .nil, .nil => some true
  | .nil, _ => some false
  | _, .nil => some false
  | a, b => if a.kind = b.kind then some (a == b) else none

/-- The order of two integers, of two truth values (false is less) or of two texts (by code
point). -/
def compare : Value → Value → Option Ordering
  | .int a, .int b => some (Ord.compare a.toInt b.toInt)
  | .bool a, .bool b => some (Ord.compare a.toNat b.toNat)
  | .string a, .string b => some (compareOfLessAndEq a b)
  | _, _ => none

/-! ## Printing -/

def boolText (b : Bool) : String := if b then "true" else "false"

/-- What WRITE prints. Nil prints as nothing. -/
def printed : Value → String
  | .int n => Text.intText n
  | .bool b => boolText b
  | .string s => s
  | .nil => ""

/-- What stands after the `@` of a constant. -/
def literalText : Value → String
  | .string s => Text.encodeEscapes s
  | .nil => "nil"
  | v => v.printed

/-- The constant that spells a value, such as `int@5`. -/
def literal (v : Value) : String := v.kind.name ++ "@" ++ v.literalText

/-! ## Reading -/

def boolOfText? : String → Option Bool
  | "true" => some true
  | "false" => some false
  | _ => none

/-- Reads the text of a constant of the given kind. Blank space around it is ignored, except in a
string, where it is part of the text. -/
def ofText? (k : Kind) (s : String) : Option Value :=
  match k with
  | .int => (Text.freeInt? s).map .int
  | .bool => (boolOfText? (Text.trim s)).map .bool
  | .string => some (.string (Text.decodeEscapes s))
  | .nil => if Text.trim s = "nil" then some .nil else none

/-- The value that READ makes of an input line, which is missing at the end of the input. A blank
line and text that is no integer give nil. -/
def ofLine (k : Readable) (line : Option String) : Value :=
  let s := Text.trim (line.getD "")
  if s.isEmpty then .nil
  else
    match k with
    | .int => ((Text.freeInt? s).map .int).getD .nil
    | .bool => .bool (Text.sameIgnoringCase s "true")
    | .string => .string s

end Value

end ThreeAddress
