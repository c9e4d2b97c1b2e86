/-!
# Text in bytes

Files and input are bytes; as text they are UTF-8.
-/

namespace ThreeAddress.Text

/-- The text that bytes spell, if they are UTF-8. -/
def ofUtf8? (bytes : List UInt8) : Option String := String.fromUTF8? bytes.toByteArray

def toUtf8 (s : String) : List UInt8 := s.toUTF8.toList

/-- The reason why bytes cannot be read as text. -/
def notUtf8 : String := "stream did not contain valid UTF-8"

end ThreeAddress.Text
