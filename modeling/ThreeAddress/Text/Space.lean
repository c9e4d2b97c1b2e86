/-!
# Blank space and pieces of text

Texts are handled as lists of characters. `isSpace` is the Unicode property White_Space and
`isControl` the general category Cc, each as its table of code points. `trim` cuts blank space off
both ends and `words` cuts a text at blank space.
-/

namespace ThreeAddress.Text

/-! ## Character classes -/

/-- The characters of the Unicode property White_Space. -/
def isSpace (c : Char) : Bool :=
  let n := c.toNat
  (0x09 ≤ n && n ≤ 0x0D) || n == 0x20 || n == 0x85 || n == 0xA0 || n == 0x1680 ||
    (0x2000 ≤ n && n ≤ 0x200A) || n == 0x2028 || n == 0x2029 || n == 0x202F || n == 0x205F ||
    n == 0x3000

/-- The characters of the general category Cc. -/
def isControl (c : Char) : Bool :=
  let n := c.toNat
  n ≤ 0x1F || (0x7F ≤ n && n ≤ 0x9F)

/-- Equality up to the case of ASCII letters. -/
def sameIgnoringCase (s t : String) : Bool :=
  s.toList.map Char.toLower == t.toList.map Char.toLower

/-! ## Cutting -/

def trimStart (cs : List Char) : List Char := cs.dropWhile isSpace

def trimEnd (cs : List Char) : List Char := (cs.reverse.dropWhile isSpace).reverse

def trimChars (cs : List Char) : List Char := trimEnd (trimStart cs)

/-- The text without the blank space at either end. -/
def trim (s : String) : String := String.ofList (trimChars s.toList)

/-- The maximal runs of characters that are not blank. -/
def words (cs : List Char) : List (List Char) :=
  (cs.splitOnP isSpace).filter (!·.isEmpty)

/-- The text before the first `c` and the text after it. -/
def splitAtFirst? (c : Char) : List Char → Option (List Char × List Char)
  | [] => none
  | d :: ds => if d = c then some ([], ds) else (splitAtFirst? c ds).map fun (l, r) => (d :: l, r)

end ThreeAddress.Text
