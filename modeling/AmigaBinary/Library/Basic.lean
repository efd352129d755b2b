import AmigaBinary.Bytes

/-!
# Extension libraries

A library adds instructions and functions to the language. It holds the code of its routines, a
table of the keywords that stand for them, and title strings.
-/

namespace AmigaBinary

/-- A keyword of a library. -/
structure Token where
  /-- The routine of the keyword as an instruction; negative if there is none. -/
  instruction : Int
  /-- The routine of the keyword as a function; negative if there is none. -/
  function : Int
  name : String
  /-- The parameters, a character each. -/
  signature : String
  /-- The byte behind the signature, which is not positive. -/
  terminator : Int
  deriving DecidableEq, Repr

/-- An extension library. -/
structure Library where
  /-- The library runs at the start of a program even when nothing in it is used. -/
  alwaysRun : Bool
  /-- The library has the marker of the professional release. -/
  ap20 : Bool
  /-- The code of the routines, in the order of their numbers. -/
  codeBlocks : List Bytes
  tokens : List Token
  title : List String
  deriving DecidableEq, Repr

end AmigaBinary
