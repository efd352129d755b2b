import AmigaBinary.Bytes

/-!
# Compiled programs

A compiled program is a row of hunks: a loader, the code of the program, the places to relocate in
it, further hunks that depend on the family of the loader, and the memory banks.
-/

namespace AmigaBinary

/-! ## 1. Banks -/

/-- A kind of memory bank. -/
inductive BankKind where
  | sprites
  | icons
  | numbered
  deriving DecidableEq, Repr

/-- The name of a kind of bank. -/
def BankKind.identifier : BankKind → String
  | .sprites => "sprites"
  | .icons => "icons"
  | .numbered => "bank"

/-- A memory bank. Sprites and icons keep their magic. -/
inductive Bank where
  | sprites (contents : Bytes)
  | icons (contents : Bytes)
  | numbered (number : UInt32) (flags : UInt16) (contents : Bytes)
  deriving DecidableEq, Repr

namespace Bank

/-- The kind of a bank. -/
def kind : Bank → BankKind
  | .sprites _ => .sprites
  | .icons _ => .icons
  | .numbered _ _ _ => .numbered

/-- The contents of a bank. -/
def contents : Bank → Bytes
  | .sprites contents | .icons contents | .numbered _ _ contents => contents

/-- The number of a bank that has one. -/
def number? : Bank → Option UInt32
  | .numbered number _ _ => some number
  | .sprites _ | .icons _ => none

end Bank

/-! ## 2. Programs -/

/-- The hunks that only programs of the first releases have. -/
structure ClassicParts where
  /-- The library code of the program. -/
  fixedLibrary : Bytes
  defaultFont : Bytes
  keyMap : Bytes
  deriving DecidableEq, Repr

/-- What only programs of the professional compiler have. -/
structure ProParts where
  /-- The longword that the loader turns around. -/
  pivot : UInt32
  /-- The library code of the program. -/
  dynamicLibrary : Bytes
  /-- The language library, if it is part of the program. -/
  amosLibrary : Option Bytes
  defaultBank : Bytes
  errorMessages : Bytes
  deriving DecidableEq, Repr

/-- The parts of a program that depend on its loader. -/
inductive LoaderParts where
  | classic (parts : ClassicParts)
  | pro (parts : ProParts)
  deriving DecidableEq, Repr

/-- A compiled program. -/
structure Program where
  loaderDigest : String
  flags : UInt32
  loaderHunk : Bytes
  mainHunk : Bytes
  relocationHunk : Bytes
  environment : Bytes
  mouse : Bytes
  parts : LoaderParts
  /-- The places in the main hunk that hold addresses. -/
  mainRelocations : List UInt32
  /-- The places in the library code that hold addresses. -/
  libraryRelocations : List UInt32
  banks : List Bank
  deriving DecidableEq, Repr

namespace LoaderParts

/-- The family of the loader. -/
def loader : LoaderParts → Loader
  | .classic _ => .classic
  | .pro _ => .pro

/-- The pivot of a professional loader. -/
def pivot? : LoaderParts → Option UInt32
  | .classic _ => none
  | .pro parts => some parts.pivot

/-- The library code that is linked when the program is loaded. -/
def dynamicLibrary? : LoaderParts → Option Bytes
  | .classic _ => none
  | .pro parts => some parts.dynamicLibrary

/-- The library code that is linked already. -/
def fixedLibrary? : LoaderParts → Option Bytes
  | .classic parts => some parts.fixedLibrary
  | .pro _ => none

/-- The language library. -/
def amosLibrary? : LoaderParts → Option Bytes
  | .classic _ => none
  | .pro parts => parts.amosLibrary

/-- The font of a program of the first releases. -/
def defaultFont? : LoaderParts → Option Bytes
  | .classic parts => some parts.defaultFont
  | .pro _ => none

/-- The key map of a program of the first releases. -/
def keyMap? : LoaderParts → Option Bytes
  | .classic parts => some parts.keyMap
  | .pro _ => none

/-- The resource bank of a professional program. -/
def defaultBank? : LoaderParts → Option Bytes
  | .classic _ => none
  | .pro parts => some parts.defaultBank

/-- The error messages of a professional program. -/
def errorMessages? : LoaderParts → Option Bytes
  | .classic _ => none
  | .pro parts => some parts.errorMessages

end LoaderParts

/-- The family of the loader of a program. -/
def Program.loader (program : Program) : Loader :=
  program.parts.loader

end AmigaBinary
