import AmigaBinary.M68k.Assembly
import AmigaBinary.M68k.Slot

/-!
# Decoding instructions

An instruction is decoded from the bytes of a code section by filling the operand slots of its
opcode with the words that follow. A word that is no opcode is an instruction of its own, shown
as data; only a missing word is an error.
-/

namespace AmigaBinary.M68k

/-! ## 1. Reading words -/

/-- A place in a code section: what is left of it, and the words read so far. -/
structure WordReader where
  rest : Bytes
  position : Nat
  words : List UInt16
  deriving DecidableEq, Repr

namespace WordReader

/-- A reader at `position` of a code section. -/
def start (code : Bytes) (position : Nat) : WordReader :=
  ⟨code.drop position, position, []⟩

/-- The next word, and the reader behind it. -/
def next (reader : WordReader) : Except Error (UInt16 × WordReader) :=
  match reader.rest with
  | high :: low :: rest =>
      let word := Bytes.word16 high low
      .ok (word, ⟨rest, reader.position + 2, reader.words ++ [word]⟩)
  | rest => .error (.truncated reader.position 2 rest.length)

/-- The next two words as a 32-bit number. -/
def nextLong (reader : WordReader) : Except Error (UInt32 × WordReader) := do
  let (high, reader) ← reader.next
  let (low, reader) ← reader.next
  .ok (Bytes.long high low, reader)

end WordReader

/-! ## 2. Filling slots -/

/-- Immediate data. A byte is the low half of its word. -/
def readImmediate (size : Size) (reader : WordReader) :
    Except Error (EffectiveAddress × WordReader) :=
  match size with
  | .byte => do
      let (word, reader) ← reader.next
      .ok (.immediate .byte (lowByteSigned word), reader)
  | .word => do
      let (word, reader) ← reader.next
      .ok (.immediate .word (Bytes.signed16 word), reader)
  | .long => do
      let (long, reader) ← reader.nextLong
      .ok (.immediate .long (Bytes.signed32 long), reader)

/-- An effective address in the given mode. -/
def readAddress (mode : Mode) (reg : Nat) (size : Size) (reader : WordReader) :
    Except Error (EffectiveAddress × WordReader) :=
  match mode with
  | .dataRegister => .ok (.dataRegister reg, reader)
  | .addressRegister => .ok (.addressRegister reg, reader)
  | .indirect => .ok (.indirect reg, reader)
  | .postIncrement => .ok (.postIncrement reg, reader)
  | .preDecrement => .ok (.preDecrement reg, reader)
  | .displaced => do
      let (word, reader) ← reader.next
      .ok (.displaced reg (Bytes.signed16 word), reader)
  | .indexed => do
      let (word, reader) ← reader.next
      .ok (.indexed reg (lowByteSigned word) (.ofExtension word), reader)
  | .absoluteWord => do
      let (word, reader) ← reader.next
      .ok (.absoluteWord (Bytes.signed16 word), reader)
  | .absoluteLong => do
      let (long, reader) ← reader.nextLong
      .ok (.absoluteLong long, reader)
  | .pcDisplaced => do
      let (word, reader) ← reader.next
      .ok (.pcDisplaced (Bytes.signed16 word), reader)
  | .pcIndexed => do
      let (word, reader) ← reader.next
      .ok (.pcIndexed (lowByteSigned word) (.ofExtension word), reader)
  | .immediate => readImmediate size reader

/-- The sixteen bits of a mask in reverse order. -/
def reverseMask (mask : UInt16) : UInt16 :=
  UInt16.ofNat ((List.range 16).foldl
    (fun sum i => sum + if mask.toNat.testBit i then 1 <<< (15 - i) else 0) 0)

/-- The operand of a slot. -/
def Slot.read (slot : Slot) (reader : WordReader) : Except Error (Operand × WordReader) :=
  match slot with
  | .fixed operand => .ok (operand, reader)
  | .immediate size => do
      let (ea, reader) ← readImmediate size reader
      .ok (.address ea, reader)
  | .address mode reg size => do
      let (ea, reader) ← readAddress mode reg size reader
      .ok (.address ea, reader)
  | .registerList reversed => do
      let (word, reader) ← reader.next
      .ok (.registerList (if reversed then reverseMask word else word), reader)
  | .displacement => do
      let (word, reader) ← reader.next
      .ok (.displacement .word (Bytes.signed16 word), reader)
  | .status => do
      let (word, reader) ← reader.next
      .ok (.address (.immediate .word word.toNat), reader)

/-- The operands of a list of slots. -/
def readSlots : List Slot → WordReader → Except Error (List Operand × WordReader)
  | [], reader => .ok ([], reader)
  | slot :: slots, reader => do
      let (operand, reader) ← slot.read reader
      let (operands, reader) ← readSlots slots reader
      .ok (operand :: operands, reader)

/-! ## 3. Instructions -/

/-- A decoded instruction, or a word that is none. -/
structure Instruction where
  offset : Nat
  opcode : Opcode
  /-- The form of instruction; `none` for a word that is no opcode. -/
  code : Option InstructionCode
  operands : List Operand
  /-- The extension words behind the opcode. -/
  words : List UInt16
  deriving DecidableEq, Repr

namespace Instruction

/-- The bytes of an instruction. -/
def bytes (i : Instruction) : Bytes :=
  (i.opcode :: i.words).flatMap Bytes.ofWord16

/-- The length of an instruction in bytes. -/
def byteLength (i : Instruction) : Nat :=
  2 + 2 * i.words.length

/-- The mnemonic of an instruction. -/
def mnemonic? (i : Instruction) : Option Mnemonic :=
  i.code.map (·.mnemonic)

/-- The size written behind the mnemonic. -/
def size? (i : Instruction) : Option Size :=
  i.code.bind (·.displaySize)

/-- Assembler text. -/
def text (i : Instruction) : String :=
  match i.code with
  | some code => instructionText code.mnemonic code.displaySize i.operands
  | none => dataWordText i.opcode

/-- The extension words that the operands call for. -/
def requiredExtensionWords (i : Instruction) : Nat :=
  total Operand.extensionWords i.operands

/-- Execution does not continue with the next instruction; it ends at a word that is none. -/
def endsFlow (i : Instruction) : Bool :=
  match i.code with
  | some code => code.mnemonic.endsFlow
  | none => true

/-- Whether an instruction is a branch or a loop. -/
def isRelative (i : Instruction) : Bool :=
  match i.code with
  | some code => code.mnemonic.isBranch || code.mnemonic.isDecrementBranch
  | none => false

/-- The displacement of an operand that is one. -/
def displacementOf? : Operand → Option Int
  | .displacement _ value => some value
  | _ => none

/-- The number of words of 64 bits. -/
def wordCount : Nat := 0x10000000000000000

/-- The offset that a branch or loop goes to. Targets are words of 64 bits in two's complement, and
    one below zero is in front of the section. -/
def branchTarget? (i : Instruction) : Option Nat :=
  if i.isRelative then
    match i.operands.findSome? displacementOf? with
    | some value => (((i.offset : Int) + 2 + value).bmod wordCount).toNat?
    | none => none
  else none

end Instruction

/-- The instruction that starts at a reader. -/
def decode (reader : WordReader) : Except Error Instruction := do
  let (opcode, behind) ← reader.next
  match classify opcode with
  | none => .ok ⟨reader.position, opcode, none, [], []⟩
  | some code =>
      let layout ← slots opcode code
      let (operands, finish) ← readSlots layout.slots { behind with words := [] }
      let operands := if layout.backward then operands.reverse else operands
      .ok ⟨reader.position, opcode, some code, operands, finish.words⟩

/-- The instruction at `offset` of a code section. -/
def readInstruction (code : Bytes) (offset : Nat) : Except Error Instruction :=
  decode (.start code offset)

/-- The length in bytes of the instruction at `offset`. -/
def instructionLength (code : Bytes) (offset : Nat) : Except Error Nat :=
  (readInstruction code offset).map (·.byteLength)

end AmigaBinary.M68k
