import ThreeAddress.Text.Space

/-!
# Escapes in string constants

A backslash and three decimal digits stand for the character with that code. Reading goes once over
the text from left to right, and a backslash that starts no escape is kept. Writing escapes blank
space, control characters, `#` and the backslash, as far as three digits can name them.
-/

namespace ThreeAddress.Text

/-- The number that three decimal digits spell, or none if one of them is no digit. -/
def threeDigits? (a b c : Char) : Option Nat :=
  if a.isDigit && b.isDigit && c.isDigit then
    some ((a.toNat - 48) * 100 + (b.toNat - 48) * 10 + (c.toNat - 48))
  else none

/-- The three decimal digits of a number below 1000. -/
def threeDigits (n : Nat) : List Char :=
  [Nat.digitChar (n / 100), Nat.digitChar (n / 10 % 10), Nat.digitChar (n % 10)]

def decodeChars : List Char → List Char
  | '\\' :: a :: b :: c :: rest =>
    match threeDigits? a b c with
    | some n => Char.ofNat n :: decodeChars rest
    | none => '\\' :: decodeChars (a :: b :: c :: rest)
  | c :: rest => c :: decodeChars rest
  | [] => []

/-- The characters that cannot stand as they are in source text. -/
def needsEscape (c : Char) : Bool :=
  isSpace c || isControl c || c == '#' || c == '\\'

def encodeChar (c : Char) : List Char :=
  if needsEscape c && c.toNat < 1000 then '\\' :: threeDigits c.toNat else [c]

def encodeChars (cs : List Char) : List Char := cs.flatMap encodeChar

/-- The text that a string constant spells. -/
def decodeEscapes (s : String) : String := String.ofList (decodeChars s.toList)

/-- The spelling of a text as a string constant. -/
def encodeEscapes (s : String) : String := String.ofList (encodeChars s.toList)

/-- Whether every backslash starts an escape. -/
def wellEscaped : List Char → Bool
  | '\\' :: a :: b :: c :: rest => (threeDigits? a b c).isSome && wellEscaped rest
  | '\\' :: _ => false
  | _ :: rest => wellEscaped rest
  | [] => true

/-- Whether a text is the spelling of a string constant in source text: no blank space, no `#`, and
every backslash starts an escape. -/
def isStringLiteral (s : String) : Bool :=
  wellEscaped s.toList && !s.toList.any fun c => isSpace c || c == '#'

end ThreeAddress.Text
