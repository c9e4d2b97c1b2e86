import ThreeAddress.Text.Space

/-!
# Integers in text

Two spellings of the 64-bit integers. `freeInt?` reads the one that input lines and XML documents
use, with bases and underscores; `sourceInt?` reads the one of source text, where a leading zero
means octal. `natural?` and `inRange?` are the parts that both share.
-/

namespace ThreeAddress.Text

/-! ## Digits -/

/-- The value of a digit in the given base, which is at most 16. -/
def digit? (base : Nat) (c : Char) : Option Nat :=
  let value :=
    if c.isDigit then some (c.toNat - 48)
    else if 'a' ≤ c ∧ c ≤ 'f' then some (c.toNat - 87)
    else if 'A' ≤ c ∧ c ≤ 'F' then some (c.toNat - 55)
    else none
  value.filter (· < base)

/-- The number that digits spell, the most significant first. -/
def ofDigits (base : Nat) (ds : List Nat) : Nat := ds.foldl (fun n d => n * base + d) 0

/-- The number that a non-empty run of digits spells. -/
def natural? (base : Nat) (cs : List Char) : Option Nat :=
  if cs.isEmpty then none else (cs.mapM (digit? base)).map (ofDigits base)

/-! ## Signs and range -/

/-- Takes one sign off the front: whether it is a minus, and what follows it. -/
def splitSign : List Char → Bool × List Char
  | '-' :: cs => (true, cs)
  | '+' :: cs => (false, cs)
  | cs => (false, cs)

/-- The signed number, if it is a 64-bit integer. -/
def inRange? (negative : Bool) (magnitude : Nat) : Option Int64 :=
  let n : Int := if negative then -(magnitude : Int) else magnitude
  if Int64.minValue.toInt ≤ n ∧ n ≤ Int64.maxValue.toInt then some (Int64.ofInt n) else none

/-! ## The spelling of input lines and documents -/

/-- The base that a letter after a leading zero names. -/
def baseOfLetter? : Char → Option Nat
  | 'x' | 'X' => some 16
  | 'o' | 'O' => some 8
  | 'b' | 'B' => some 2
  | _ => none

def dropUnderscore : List Char → List Char
  | '_' :: cs => cs
  | cs => cs

/-- The base of an unsigned numeral and its digits. One underscore may follow the base letter. -/
def splitBase (cs : List Char) : Nat × List Char :=
  match cs with
  | '0' :: c :: rest =>
    match baseOfLetter? c with
    | some base => (base, dropUnderscore rest)
    | none => (10, cs)
  | _ => (10, cs)

/-- The digits without their underscores. Each underscore has to stand between two digits. -/
def joinGroups? (cs : List Char) : Option (List Char) :=
  let groups := cs.splitOn '_'
  if groups.any List.isEmpty then none else some groups.flatten

/-- A decimal numeral starts with a zero only if it has no other digit. -/
def plainDecimal : List Char → Bool
  | '0' :: cs => cs.all (· == '0')
  | _ => true

def unsigned? (cs : List Char) : Option Nat :=
  let (base, digits) := splitBase cs
  match joinGroups? digits with
  | none => none
  | some ds => if base == 10 && !plainDecimal ds then none else natural? base ds

/-- Reads an integer with blank space around it, an optional sign, a base of 16, 8, 2 or 10, and
single underscores between digits. -/
def freeInt? (s : String) : Option Int64 :=
  let (negative, body) := splitSign (trimChars s.toList)
  (unsigned? body).bind (inRange? negative)

/-! ## The spelling of source text -/

def isOctalDigit (c : Char) : Bool := '0' ≤ c && c ≤ '7'

/-- The base of an unsigned numeral of source text and its digits. A leading zero means octal if only
octal digits follow it. -/
def splitSourceBase (cs : List Char) : Nat × List Char :=
  match cs with
  | '0' :: 'x' :: rest | '0' :: 'X' :: rest => (16, rest)
  | '0' :: 'o' :: rest | '0' :: 'O' :: rest => (8, rest)
  | '0' :: c :: rest => if (c :: rest).all isOctalDigit then (8, c :: rest) else (10, cs)
  | _ => (10, cs)

/-- Reads an integer constant of source text: an optional sign, then hexadecimal, octal or decimal
digits. -/
def sourceInt? (s : String) : Option Int64 :=
  let (negative, body) := splitSign s.toList
  let (base, digits) := splitSourceBase body
  (natural? base digits).bind (inRange? negative)

/-! ## Printing -/

/-- The decimal spelling of an integer. -/
def intText (n : Int64) : String := toString n.toInt

end ThreeAddress.Text
