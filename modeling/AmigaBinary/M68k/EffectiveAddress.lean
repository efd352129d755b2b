import AmigaBinary.Bytes
import AmigaBinary.M68k.Size

/-!
# Addressing modes, effective addresses and operands

A six-bit field of the opcode selects one of twelve addressing modes. What an instruction may do
with an operand is a matter of the mode's capabilities: a MOVE destination has to be data
alterable, a JMP target needs a control mode, and so on, as in the processor's manual.
-/

namespace AmigaBinary.M68k

/-! ## 1. Capabilities and modes -/

/-- What an instruction may do with an operand. -/
inductive Capability where
  | dataRegister
  | addressRegister
  | memory
  | control
  | immediate
  | alterable
  | data
  | dataAlterable
  | memoryAlterable
  deriving DecidableEq, Repr

/-- The name of a capability in messages. -/
def Capability.name : Capability → String
  | .dataRegister => "DATA_REGISTER"
  | .addressRegister => "ADDRESS_REGISTER"
  | .memory => "MEMORY"
  | .control => "CONTROL"
  | .immediate => "IMMEDIATE"
  | .alterable => "ALTERABLE"
  | .data => "DATA"
  | .dataAlterable => "DATA_ALTERABLE"
  | .memoryAlterable => "MEMORY_ALTERABLE"

/-- An addressing mode of the 68000. -/
inductive Mode where
  | dataRegister
  | addressRegister
  | indirect
  | postIncrement
  | preDecrement
  | displaced
  | indexed
  | absoluteWord
  | absoluteLong
  | pcDisplaced
  | pcIndexed
  | immediate
  deriving DecidableEq, Repr

namespace Mode

/-- The mode of a mode field and a register field. The register field selects the mode only
    under mode field 7, where the values 5, 6 and 7 are reserved. -/
def ofFields? : Nat → Nat → Option Mode
  | 0, _ => some .dataRegister
  | 1, _ => some .addressRegister
  | 2, _ => some .indirect
  | 3, _ => some .postIncrement
  | 4, _ => some .preDecrement
  | 5, _ => some .displaced
  | 6, _ => some .indexed
  | 7, 0 => some .absoluteWord
  | 7, 1 => some .absoluteLong
  | 7, 2 => some .pcDisplaced
  | 7, 3 => some .pcIndexed
  | 7, 4 => some .immediate
  | _, _ => none

/-- The capabilities of a mode, in the order of the type `Capability`. -/
def capabilities : Mode → List Capability
  | .dataRegister => [.dataRegister, .alterable, .data, .dataAlterable]
  | .addressRegister => [.addressRegister, .alterable]
  | .postIncrement | .preDecrement =>
      [.memory, .alterable, .data, .dataAlterable, .memoryAlterable]
  | .indirect | .displaced | .indexed | .absoluteWord | .absoluteLong =>
      [.memory, .control, .alterable, .data, .dataAlterable, .memoryAlterable]
  | .pcDisplaced | .pcIndexed => [.memory, .control, .data]
  | .immediate => [.immediate, .data]

/-- Whether a mode has a capability. -/
def can (mode : Mode) (capability : Capability) : Bool :=
  mode.capabilities.contains capability

/-- The extension words of an address in this mode, where immediate data has the given size. -/
def extensionWords (size : Size) : Mode → Nat
  | .dataRegister | .addressRegister | .indirect | .postIncrement | .preDecrement => 0
  | .displaced | .indexed | .pcDisplaced | .pcIndexed | .absoluteWord => 1
  | .absoluteLong => 2
  | .immediate => size.immediateWords

end Mode

/-! ## 2. Effective addresses -/

/-- The index register of the indexed modes. -/
structure IndexRegister where
  /-- An address register rather than a data register. -/
  isAddress : Bool
  reg : Nat
  /-- The whole register rather than its sign-extended low word. -/
  isLong : Bool
  deriving DecidableEq, Repr

/-- The index register that a brief extension word names. -/
def IndexRegister.ofExtension (word : UInt16) : IndexRegister where
  isAddress := 0x8000 ≤ word.toNat
  reg := word.toNat / 0x1000 % 8
  isLong := word.toNat / 0x800 % 2 = 1

/-- The displacement in the low byte of a word. -/
def lowByteSigned (word : UInt16) : Int :=
  Bytes.signed8 word.toUInt8

/-- An effective address with its registers, displacements and data. -/
inductive EffectiveAddress where
  | dataRegister (reg : Nat)
  | addressRegister (reg : Nat)
  | indirect (reg : Nat)
  | postIncrement (reg : Nat)
  | preDecrement (reg : Nat)
  | displaced (reg : Nat) (displacement : Int)
  | indexed (reg : Nat) (displacement : Int) (index : IndexRegister)
  | pcDisplaced (displacement : Int)
  | pcIndexed (displacement : Int) (index : IndexRegister)
  /-- A 16-bit address, which the processor sign-extends. -/
  | absoluteWord (address : Int)
  | absoluteLong (address : UInt32)
  | immediate (size : Size) (value : Int)
  deriving DecidableEq, Repr

namespace EffectiveAddress

/-- The mode of an address. -/
def mode : EffectiveAddress → Mode
  | .dataRegister _ => .dataRegister
  | .addressRegister _ => .addressRegister
  | .indirect _ => .indirect
  | .postIncrement _ => .postIncrement
  | .preDecrement _ => .preDecrement
  | .displaced _ _ => .displaced
  | .indexed _ _ _ => .indexed
  | .pcDisplaced _ => .pcDisplaced
  | .pcIndexed _ _ => .pcIndexed
  | .absoluteWord _ => .absoluteWord
  | .absoluteLong _ => .absoluteLong
  | .immediate _ _ => .immediate

/-- The extension words that an address occupies. -/
def extensionWords : EffectiveAddress → Nat
  | .immediate size _ => size.immediateWords
  | address => address.mode.extensionWords .word

end EffectiveAddress

/-! ## 3. Operands -/

/-- An instruction operand. -/
inductive Operand where
  | address (ea : EffectiveAddress)
  | ccr
  | sr
  | usp
  /-- A register set: bit i is D0 to D7, then A0 to A7, whatever the transfer direction. -/
  | registerList (mask : UInt16)
  /-- A displacement relative to the word behind the opcode. -/
  | displacement (size : Size) (value : Int)
  /-- Data inside the opcode word. -/
  | quick (value : Int)
  /-- A trap number. -/
  | vector (number : Nat)
  deriving DecidableEq, Repr

namespace Operand

/-- The data register with the given number, as an operand. -/
def dataRegister (reg : Nat) : Operand :=
  .address (.dataRegister reg)

/-- The address register with the given number, as an operand. -/
def addressRegister (reg : Nat) : Operand :=
  .address (.addressRegister reg)

/-- The extension words that an operand occupies. -/
def extensionWords : Operand → Nat
  | .address ea => ea.extensionWords
  | .registerList _ => 1
  | .displacement .byte _ => 0
  | .displacement _ _ => 1
  | .ccr | .sr | .usp | .quick _ | .vector _ => 0

end Operand

end AmigaBinary.M68k
