import ThreeAddress.Text.Numeral
import ThreeAddress.Text.Space
import ThreeAddress.Xml.Char

/-!
# References in XML

What raw text and raw attribute values stand for. A reference is cut out between its `&` and the
next `;` and stands for one character, which is kept as it is. The pieces of text around references
have their line ends made uniform: to a line feed in text, and to a space in an attribute value,
where a tab becomes a space too. In text a carriage return is taken for a line end only if a
character that is no reference, or the end of the text, comes after it.
-/

namespace ThreeAddress.Xml

/-- The character with the given code. A code below 2³² that belongs to no character stands for the
replacement character. -/
def charOfCode? (n : Nat) : Option Char :=
  let c := if n.isValidChar then Char.ofNat n else '\uFFFD'
  if n < UInt32.size && isChar c then some c else none

/-- The character that a reference stands for, given what stands between its `&` and its `;`. -/
def referenced? : List Char → Option Char
  | '#' :: 'x' :: digits => (Text.natural? 16 digits).bind charOfCode?
  | '#' :: digits => (Text.natural? 10 digits).bind charOfCode?
  | ['q', 'u', 'o', 't'] => some '"'
  | ['a', 'm', 'p'] => some '&'
  | ['a', 'p', 'o', 's'] => some '\''
  | ['l', 't'] => some '<'
  | ['g', 't'] => some '>'
  | _ => none

/-! ## Line ends -/

/-- Makes every line end a line feed, except that a carriage return at the very end may be kept. -/
def uniformLines (keepLast : Bool) : List Char → List Char
  | [] => []
  | ['\r'] => [if keepLast then '\r' else '\n']
  | '\r' :: '\n' :: cs => '\n' :: uniformLines keepLast cs
  | '\r' :: cs => '\n' :: uniformLines keepLast cs
  | c :: cs => c :: uniformLines keepLast cs

/-- Whether a reference stands directly before a piece of text, and whether one stands after it. -/
structure Edges where
  preceded : Bool
  followed : Bool

/-- Makes the line ends in a piece of text uniform. A carriage return at its end is kept if a reference
follows, and also if it is the whole piece after a reference, since a character next to a reference
is taken as it is. -/
def uniformPiece (e : Edges) (piece : List Char) : List Char :=
  uniformLines (e.followed || (e.preceded && piece == ['\r'])) piece

/-- Makes every line end and every tab in a piece of an attribute value a space. -/
def flatPiece (_ : Edges) (piece : List Char) : List Char :=
  (uniformLines false piece).map fun c => if isSpace c then ' ' else c

/-! ## Decoding -/

/-- Decodes the pieces that each start after an `&`: a reference, then text, to which `plain` is
applied. -/
def decodePieces? (plain : Edges → List Char → List Char) : List (List Char) → Option (List Char)
  | [] => some []
  | piece :: pieces => do
    let (name, text) ← Text.splitAtFirst? ';' piece
    let c ← referenced? name
    let decoded ← decodePieces? plain pieces
    return c :: plain { preceded := true, followed := !pieces.isEmpty } text ++ decoded

/-- Puts characters in the place of references and applies `plain` to the text around them. -/
def decode? (plain : Edges → List Char → List Char) (raw : List Char) : Option String :=
  match raw.splitOn '&' with
  | [] => none
  | first :: pieces =>
    (decodePieces? plain pieces).map fun decoded =>
      String.ofList (plain { preceded := false, followed := !pieces.isEmpty } first ++ decoded)

def decodeText? (raw : List Char) : Option String := decode? uniformPiece raw

def decodeValue? (raw : List Char) : Option String := decode? flatPiece raw

/-- What a marked section stands for. It holds no references. -/
def decodeVerbatim (raw : List Char) : String := String.ofList (uniformLines false raw)

end ThreeAddress.Xml
