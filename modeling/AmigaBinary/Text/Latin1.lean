/-!
# ISO-8859-1 text

Names and titles in Amiga files are ISO-8859-1: every byte is the character of the same number.
-/

namespace AmigaBinary.Text

/-- The character of a byte. -/
def latin1Char (b : UInt8) : Char :=
  Char.ofNat b.toNat

/-- A byte string read as ISO-8859-1. -/
def latin1 (bytes : List UInt8) : String :=
  String.ofList (bytes.map latin1Char)

end AmigaBinary.Text
