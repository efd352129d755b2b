import AmigaBinary.M68k.Instruction

/-!
# Listings

A listing is the sequence of instructions of a code section, each starting where the one before it
ends. It stops in front of an instruction that the end of the section cuts off.
-/

namespace AmigaBinary.M68k

/-! ## 1. Whole sections -/

/-- The instructions of `code`, the first of which is at `offset`. -/
def listing : Bytes → Nat → List Instruction
  | [], _ => []
  | byte :: rest, offset =>
    match decode ⟨byte :: rest, offset, []⟩ with
    | .error _ => []
    | .ok i => i :: listing ((byte :: rest).drop i.byteLength) (offset + i.byteLength)
termination_by code => code.length
decreasing_by
  simp only [List.length_drop, List.length_cons, Instruction.byteLength]
  omega

/-- An instruction with its offset as a word of 64 bits. -/
def Instruction.wrap (i : Instruction) : Instruction :=
  { i with offset := i.offset % Instruction.wordCount }

/-- The instructions of a code section that is loaded at `base`. Their offsets are sums of 64 bits:
    behind the last word they start again at zero. -/
def disassemble (code : Bytes) (base : Nat) : List Instruction :=
  (listing code base).map Instruction.wrap

/-! ## 2. Runs of instructions -/

/-- The offset behind the first instruction that execution does not fall through, from an
    instruction at `offset` on. -/
def endOfFlow : Bytes → Nat → Except Error Nat
  | [], offset => .error (.truncated offset 2 0)
  | byte :: rest, offset =>
    match decode ⟨byte :: rest, offset, []⟩ with
    | .error e => .error e
    | .ok i =>
      if i.endsFlow then .ok (offset + i.byteLength)
      else endOfFlow ((byte :: rest).drop i.byteLength) (offset + i.byteLength)
termination_by code => code.length
decreasing_by
  simp only [List.length_drop, List.length_cons, Instruction.byteLength]
  omega

/-- The range from `offset` up to the end of the first instruction that execution does not fall
    through. -/
def runUntilReturn (code : Bytes) (offset : Nat) : Except Error (Nat × Nat) :=
  (endOfFlow (code.drop offset) offset).map fun finish => (offset, finish)

end AmigaBinary.M68k
