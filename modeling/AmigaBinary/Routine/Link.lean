import AmigaBinary.Hunk.Basic
import AmigaBinary.Routine.Pattern

/-!
# Linking routines

Routines are laid out one behind the other after a return instruction, and the escapes in them
become instructions of the same length: branches with a word displacement, jumps to absolute
addresses, and address loads relative to the program counter. Absolute addresses are offsets with a
tag in the top four bits; their places are recorded for relocation.
-/

namespace AmigaBinary.Routine

open M68k

/-! ## 1. Layout -/

/-- A routine to link. -/
structure Source where
  library : UInt8
  routine : UInt16
  pattern : Pattern
  deriving DecidableEq, Repr

/-- The place of a linked routine. -/
structure Placement where
  library : UInt8
  routine : UInt16
  offset : Nat
  length : Nat
  /-- Execution runs into the next routine without a branch. -/
  fallthrough : Bool
  deriving DecidableEq, Repr

/-- The name of a routine: its library and its number. -/
def Source.key (source : Source) : UInt8 × UInt16 :=
  (source.library, source.routine)

/-- The name of a placed routine. -/
def Placement.key (placement : Placement) : UInt8 × UInt16 :=
  (placement.library, placement.routine)

/-- Whether a routine ends by branching to the one behind it. -/
def fallsInto (source : Source) : Option Source → Bool
  | some next =>
      next.library == source.library && source.pattern.fallthroughTarget == some next.routine
  | none => false

/-- The place of a routine at an offset, given the one behind it. -/
def place (source : Source) (next : Option Source) (offset : Nat) : Placement :=
  let fallthrough := fallsInto source next
  { library := source.library
    routine := source.routine
    offset := offset
    length := if fallthrough then source.pattern.bodyLength else source.pattern.length
    fallthrough := fallthrough }

/-- The places of routines from an offset on. -/
def layoutFrom : List Source → Nat → List Placement
  | [], _ => []
  | source :: rest, offset =>
    let placement := place source rest.head? offset
    placement :: layoutFrom rest (offset + placement.length)

/-- The length of the return instruction in front of the first routine. -/
def startOffset : Nat := 2

/-- The places of routines. -/
def layout (sources : List Source) : List Placement :=
  layoutFrom sources startOffset

/-- The first routine whose name one in front of it has already; `seen` are the names so far. -/
def firstRepeated? : List (UInt8 × UInt16) → List Source → Option Source
  | _, [] => none
  | seen, source :: rest =>
    if seen.contains source.key then some source else firstRepeated? (source.key :: seen) rest

/-- The rank of a name: by library, and in a library by number. -/
def rank (key : UInt8 × UInt16) : Nat :=
  0x10000 * key.1.toNat + key.2.toNat

/-- Whether the ranks of the names ascend, from `bound` on. -/
def ascends : Nat → List Source → Bool
  | _, [] => true
  | bound, source :: rest => bound ≤ rank source.key && ascends (rank source.key + 1) rest

/-- Ascending names do not repeat. -/
theorem firstRepeated?_of_ascends {bound : Nat} {seen : List (UInt8 × UInt16)}
    {sources : List Source} (hs : ∀ key ∈ seen, rank key < bound)
    (h : ascends bound sources = true) : firstRepeated? seen sources = none := by
  induction sources generalizing bound seen with
  | nil => rfl
  | cons source rest ih =>
      simp only [ascends, Bool.and_eq_true, decide_eq_true_eq] at h
      have hn : source.key ∉ seen := fun hm => absurd (hs _ hm) (by omega)
      simp only [firstRepeated?, List.contains_iff_mem, hn, if_false]
      refine ih ?_ h.2
      intro key hk
      rcases List.mem_cons.1 hk with rfl | hk
      · omega
      · have := hs key hk
        omega

/-- The first routine with the name of one in front of it. Names that ascend, as those of a library
    do, need no search. -/
def repeated? (sources : List Source) : Option Source :=
  if ascends 0 sources then none else firstRepeated? [] sources

theorem repeated?_eq (sources : List Source) : repeated? sources = firstRepeated? [] sources := by
  unfold repeated?
  split
  · rename_i h
    exact (firstRepeated?_of_ascends (by simp) h).symm
  · rfl

/-! ## 2. Instructions -/

def nop : UInt16 := 0x4E71
def rts : UInt16 := 0x4E75

/-- A jump to or a call of a 32-bit address. -/
def jumpAbsolute (call : Bool) : UInt16 :=
  if call then 0x4EB9 else 0x4EF9

/-- A jump or call through an address register. -/
def jumpIndirect (call : Bool) (reg : UInt8) : UInt16 :=
  (if call then 0x4E90 else 0x4ED0) ||| reg.toUInt16

/-- The load of an address relative to the program counter into an address register. -/
def loadRelative (reg : UInt8) : UInt16 :=
  (0x41FA : UInt16) ||| reg.toUInt16 <<< 9

/-- A branch with a word displacement. -/
def branchWord (condition : Condition) : UInt16 :=
  (0x6000 : UInt16) ||| UInt16.ofNat condition.field <<< 8

/-- The tag of an absolute address. -/
def addressTag : UInt32 := 0x10000000

/-! ## 3. Linked sections -/

/-- Code and the places of the absolute addresses in it. -/
structure Fragment where
  code : Bytes
  relocations : List UInt32
  deriving DecidableEq, Repr

/-- Code without absolute addresses. -/
def Fragment.plain (code : Bytes) : Fragment :=
  ⟨code, []⟩

/-- One fragment behind another. -/
def Fragment.append (a b : Fragment) : Fragment :=
  ⟨a.code ++ b.code, a.relocations ++ b.relocations⟩

/-- The offset of a routine. -/
def targetOffset (placements : List Placement) (library : UInt8) (routine : UInt16) :
    Except Error Nat :=
  match placements.find? (·.key == (library, routine)) with
  | some placement => .ok placement.offset
  | none => .error (.unresolvedRoutine library routine)

/-- The displacement from a word at offset `field` to a target. -/
def displacementWord (field target : Nat) : Except Error Bytes :=
  let displacement := (target : Int) - field
  if -0x8000 ≤ displacement ∧ displacement < 0x8000 then
    .ok (Bytes.ofWord16 (UInt16.ofNat (displacement % 0x10000).toNat))
  else .error (.displacementRange displacement field)

/-- A branch at an offset. -/
def linkBranch (mnemonic : Mnemonic) (offset target : Nat) : Except Error Fragment :=
  match mnemonic with
  | .branch condition => do
      let displacement ← displacementWord (offset + 2) target
      .ok (.plain (Bytes.ofWord16 (branchWord condition) ++ displacement))
  | _ => .error (.badSection (.notABranch mnemonic))

/-- An address load at an offset, and an instruction behind it. -/
def linkLoad (reg : UInt8) (offset target : Nat) (behind : UInt16) : Except Error Fragment := do
  let displacement ← displacementWord (offset + 2) target
  .ok (.plain (Bytes.ofWord16 (loadRelative reg) ++ displacement ++ Bytes.ofWord16 behind))

/-- A section of a routine of library `own`, at an offset. -/
def linkSection (placements : List Placement) (own : UInt8) (offset : Nat) :
    Section → Except Error Fragment
  | .literal bytes => .ok (.plain bytes)
  | .branch mnemonic target => do
      let target ← targetOffset placements own target
      linkBranch mnemonic offset target
  | .library call library routine => do
      let target ← targetOffset placements (if library = 0 then own else library) routine
      .ok ⟨Bytes.ofWord16 (jumpAbsolute call)
        ++ Bytes.ofWord32 (addressTag ||| UInt32.ofNat target), [UInt32.ofNat (offset + 2)]⟩
  | .register call reg routine => do
      let target ← targetOffset placements own routine
      linkLoad reg offset target (jumpIndirect call reg)
  | .loadAddress reg routine => do
      let target ← targetOffset placements own routine
      linkLoad reg offset target nop
  | .rawData => .ok (.plain (Bytes.ofWord16 nop ++ Bytes.ofWord16 nop))

/-- Sections from an offset on, and `last` behind them. -/
def linkSections (placements : List Placement) (own : UInt8)
    (last : Nat → Except Error Fragment) : Nat → List Section → Except Error Fragment
  | offset, [] => last offset
  | offset, s :: rest => do
      let first ← linkSection placements own offset s
      let others ← linkSections placements own last (offset + s.length) rest
      .ok (first.append others)

/-- The branch at the end of a routine, where it is not left out. -/
def linkFallthrough (placements : List Placement) (source : Source) (placement : Placement)
    (offset : Nat) : Except Error Fragment :=
  match source.pattern.fallthroughTarget, placement.fallthrough with
  | some target, false => do
      let target ← targetOffset placements source.library target
      linkBranch (.branch .always) offset target
  | _, _ => .ok (.plain [])

/-- A routine at its place. -/
def linkRoutine (placements : List Placement) (source : Source) (placement : Placement) :
    Except Error Fragment :=
  linkSections placements source.library (linkFallthrough placements source placement)
    placement.offset source.pattern.sections

/-- Routines at their places, one behind the other. -/
def linkRoutines (placements : List Placement) :
    List (Source × Placement) → Except Error Fragment
  | [] => .ok (.plain [])
  | (source, placement) :: rest => do
      let first ← linkRoutine placements source placement
      let others ← linkRoutines placements rest
      .ok (first.append others)

/-! ## 4. Linked code -/

/-- Linked routines. -/
structure Linked where
  code : Bytes
  /-- The offsets of absolute addresses. -/
  relocations : List UInt32
  routines : List Placement
  deriving DecidableEq, Repr

/-- The linked form of routines, in the given order. -/
def link (sources : List Source) : Except Error Linked :=
  match repeated? sources with
  | some source => .error (.duplicateRoutine source.library source.routine)
  | none => do
      let placements := layout sources
      let linked ← linkRoutines placements (sources.zip placements)
      .ok ⟨Bytes.ofWord16 rts ++ linked.code, linked.relocations, placements⟩

namespace Linked

/-- The place of a routine. -/
def placement? (linked : Linked) (library : UInt8) (routine : UInt16) : Option Placement :=
  linked.routines.find? (·.key == (library, routine))

/-- The code without the tags of the addresses at ascending offsets; `code` starts at offset
    `position`. -/
def clearTags : List UInt32 → Nat → Bytes → Bytes
  | [], _, code => code
  | offset :: offsets, position, code =>
    let skip := offset.toNat - position
    match code.drop skip with
    | a :: b :: c :: d :: rest =>
        code.take skip ++ (a &&& 0x0F) :: b :: c :: d :: clearTags offsets (offset.toNat + 4) rest
    | _ => code

/-- The code as it is loaded: addresses without tags, in whole longwords. -/
def loadable (linked : Linked) : Bytes :=
  Bytes.padToLong (clearTags linked.relocations 0 linked.code)

/-- A hunk file with the linked code and its relocations. -/
def toHunkFile (linked : Linked) : HunkFile :=
  let code := linked.loadable
  { extent := .complete
    sizes := [⟨UInt32.ofNat code.length, .any⟩]
    hunks :=
      if linked.relocations = [] then [.code code, .finish]
      else [.code code, .reloc32 [⟨0, linked.relocations⟩], .finish] }

end Linked

end AmigaBinary.Routine
