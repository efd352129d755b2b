import AmigaBinary.M68k.EffectiveAddress

/-!
# The fields of an opcode word

The first word of an instruction is cut into a line of four bits, a register field, an operation
mode of three bits each, and the mode and register of an effective address. Some instructions
read the middle bits differently.

    15..12  11..9  8..6    5..3  2..0
    line    upper  opmode  mode  reg
-/

namespace AmigaBinary.M68k

/-- The first word of an instruction. -/
abbrev Opcode := UInt16

namespace Opcode

/-! ## 1. The five fields -/

/-- Bits 15 to 12. -/
def line (op : Opcode) : Nat :=
  op.toNat / 0x1000

/-- Bits 11 to 9: a register, or quick data. -/
def upper (op : Opcode) : Nat :=
  op.toNat / 0x200 % 8

/-- Bits 8 to 6: an operation mode, or the mode of a MOVE destination. -/
def opmode (op : Opcode) : Nat :=
  op.toNat / 0x40 % 8

/-- Bits 5 to 3: the mode of the effective address. -/
def mode (op : Opcode) : Nat :=
  op.toNat / 8 % 8

/-- Bits 2 to 0: the register of the effective address. -/
def reg (op : Opcode) : Nat :=
  op.toNat % 8

/-! ## 2. Other readings -/

/-- Bits 7 and 6: the size of most operations. -/
def sizeField (op : Opcode) : Nat :=
  op.toNat / 0x40 % 4

/-- Bits 11 to 8: a condition. -/
def condition (op : Opcode) : Nat :=
  op.toNat / 0x100 % 16

/-- Bit 8, which tells directions and static from dynamic bit operations apart. -/
def bit8 (op : Opcode) : Bool :=
  op.toNat / 0x100 % 2 = 1

/-- Bit 5 of a register shift: the count is in a register. -/
def bit5 (op : Opcode) : Bool :=
  op.toNat / 0x20 % 2 = 1

/-- The low byte as signed data: a short branch displacement or the data of MOVEQ. -/
def lowByte (op : Opcode) : Int :=
  lowByteSigned op

/-- Bits 3 to 0: a trap number. -/
def trapNumber (op : Opcode) : Nat :=
  op.toNat % 16

/-- Bits 11 to 9 as quick data or a shift count, where 0 stands for 8. -/
def quickData (op : Opcode) : Nat :=
  if op.upper = 0 then 8 else op.upper

/-- The addressing mode of the effective address; `none` for a reserved one. -/
def addressMode? (op : Opcode) : Option Mode :=
  Mode.ofFields? op.mode op.reg

end Opcode

end AmigaBinary.M68k
