import AmigaBinary.Routine.Section
import AmigaBinary.Total

/-!
# Patterns of routines

A pattern is what a linker needs of a routine: its sections without a branch at the end, and the
routines that it starts or ends by branching to. A branch at the end can be left out when its
target follows. Two endings that the library compiler adds are cut off first.
-/

namespace AmigaBinary.Routine

/-! ## 1. Patterns -/

/-- A routine as a linker sees it. -/
structure Pattern where
  sections : List Section
  /-- The routine that this one starts by branching to. -/
  redirectTarget : Option UInt16
  /-- The routine that this one ends by branching to. -/
  fallthroughTarget : Option UInt16
  deriving DecidableEq, Repr

namespace Pattern

/-- The length of the sections. -/
def bodyLength (pattern : Pattern) : Nat :=
  total Section.length pattern.sections

/-- The length of the routine with the branch at its end. -/
def length (pattern : Pattern) : Nat :=
  pattern.bodyLength + if pattern.fallthroughTarget.isSome then 4 else 0

/-- The routines that a pattern refers to, in order. -/
def references (pattern : Pattern) : List (UInt8 × UInt16) :=
  pattern.sections.filterMap Section.reference?
    ++ (pattern.fallthroughTarget.map fun target => (0, target)).toList

end Pattern

/-! ## 2. Endings -/

/-- The marker at the end of routines that fetch parameters. -/
def parameterMarker : Bytes :=
  Bytes.ascii "GetP"

/-- The code without the marker at its end. -/
def dropMarker (code : Bytes) : Bytes :=
  if parameterMarker.isSuffixOf code then code.take (code.length - 4) else code

/-- The code with a plain return at its end, where it has one that sets D2 to 0, 1 or 2 first. -/
def dropTypeLoad (code : Bytes) : Bytes :=
  match code.drop (code.length - 4) with
  | [0x74, type, 0x4E, 0x75] =>
      if type ≤ 2 then code.take (code.length - 4) ++ [0x4E, 0x75] else code
  | _ => code

/-- The code of a routine without the endings of the library compiler. -/
def trimmed (code : Bytes) : Bytes :=
  dropTypeLoad (dropMarker code)

/-! ## 3. Analysis -/

/-- The target of a section that is an unconditional branch. -/
def braTarget? : Section → Option UInt16
  | .branch (.branch .always) target => some target
  | _ => none

/-- The pattern of a list of sections. -/
def Pattern.ofSections (sections : List Section) : Pattern :=
  let last := sections.getLast?.bind braTarget?
  let first := sections.head?.bind braTarget?
  { sections := if last.isSome then sections.dropLast else sections
    redirectTarget := first
    fallthroughTarget := last }

/-- The pattern of the code of a routine. -/
def Pattern.ofCode (code : Bytes) : Pattern :=
  .ofSections (scan (trimmed code))

end AmigaBinary.Routine
