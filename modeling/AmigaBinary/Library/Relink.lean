import AmigaBinary.Library.Basic
import AmigaBinary.Routine.Link

/-!
# Relinking libraries

The routines of a library are numbered by their place in the table of code blocks, and numbers have
16 bits. A library is relinked by linking all of its routines in that order.
-/

namespace AmigaBinary.Library

/-- The number of routines that can have a number. -/
def numberLimit : Nat := 0x10000

/-- Values of code blocks with the numbers of the routines, from `index` on. -/
def numbered {α : Type} (index : Nat) : List α → List (UInt16 × α)
  | [] => []
  | value :: rest => (UInt16.ofNat index, value) :: numbered (index + 1) rest

/-- The code blocks of a library with the numbers of their routines. -/
def routines (library : Library) : Except Error (List (UInt16 × Bytes)) :=
  if library.codeBlocks.length ≤ numberLimit then .ok (numbered 0 library.codeBlocks)
  else .error (.badSection (.routineNumber numberLimit))

/-- A code block as a routine to link. All routines belong to library 0. -/
def source (number : UInt16) (code : Bytes) : Routine.Source :=
  ⟨0, number, .ofCode code⟩

/-- All routines of a library in one block. -/
def relink (library : Library) : Except Error Routine.Linked := do
  let routines ← library.routines
  Routine.link (routines.map fun routine => source routine.1 routine.2)

end AmigaBinary.Library
