import AmigaBinary.M68k.InstructionCode
import AmigaBinary.Total

/-!
# Operand slots

What operands an instruction has, and how many extension words each of them takes, is decided by
the opcode word alone. `slots` computes the list of operand slots from a classified opcode; a
slot is then filled from the words behind the opcode. The capability that an instruction needs
of an effective address is checked here a second time, against the demands of the operand and
not of the encoding.
-/

namespace AmigaBinary.M68k

/-! ## 1. Slots -/

/-- A place for an operand. -/
inductive Slot where
  /-- The operand is in the opcode word. -/
  | fixed (operand : Operand)
  /-- Immediate data in one or two extension words. -/
  | immediate (size : Size)
  /-- An effective address; immediate data has the given size. -/
  | address (mode : Mode) (reg : Nat) (size : Size)
  /-- A register mask. A mask for a transfer through `-(An)` has its bits in reverse order. -/
  | registerList (reversed : Bool)
  /-- A branch displacement of a whole word. -/
  | displacement
  /-- A value for the status register, which has no sign. -/
  | status
  deriving DecidableEq, Repr

/-- The extension words that fill a slot. -/
def Slot.extensionWords : Slot → Nat
  | .fixed _ => 0
  | .immediate size => size.immediateWords
  | .address mode _ size => mode.extensionWords size
  | .registerList _ | .displacement | .status => 1

/-- The slots of an instruction, in the order in which their extension words follow the opcode. -/
structure Layout where
  slots : List Slot
  /-- The operands are written in the opposite order. -/
  backward : Bool
  deriving DecidableEq, Repr

/-- The extension words of an instruction. -/
def Layout.extensionWords (layout : Layout) : Nat :=
  total Slot.extensionWords layout.slots

/-! ## 2. Slots of an effective address -/

/-- The error of an operand that its instruction cannot have. -/
def invalidOperand {α : Type} (op : Opcode) (fault : String) : Except Error α :=
  .error (.invalidOperand op fault)

/-- The slot of an effective address in the given fields. Immediate data needs a size. -/
def addressSlot (op : Opcode) (mode reg : Nat) (size : Option Size) : Except Error Slot :=
  match Mode.ofFields? mode reg, size with
  | none, _ => invalidOperand op ("reserved addressing mode " ++ toString mode ++ "/" ++ toString reg)
  | some .immediate, none => invalidOperand op "immediate operand without a size"
  | some m, some s => .ok (.address m reg s)
  | some m, none => .ok (.address m reg .word)

/-- The slot of the effective address in the low six bits. -/
def sourceSlot (op : Opcode) (size : Option Size) : Except Error Slot :=
  addressSlot op op.mode op.reg size

/-- The capability that an operand has to have. -/
def Slot.require (op : Opcode) (role : String) (capability : Capability) (slot : Slot) :
    Except Error Slot :=
  match slot with
  | .address mode _ _ =>
      if mode.can capability then .ok slot
      else invalidOperand op (role ++ " is not " ++ capability.name)
  | _ => .ok slot

/-- The slot of the effective address in the low six bits, which has to have a capability. -/
def requiredSlot (op : Opcode) (role : String) (capability : Capability) (size : Option Size) :
    Except Error Slot :=
  (sourceSlot op size).bind (Slot.require op role capability)

/-! ## 3. The slots of an instruction -/

/-- A data register as a slot. -/
def Slot.dataRegister (reg : Nat) : Slot :=
  .fixed (.dataRegister reg)

/-- An address register as a slot. -/
def Slot.addressRegister (reg : Nat) : Slot :=
  .fixed (.addressRegister reg)

/-- Slots in the order of the operands. -/
def forward (slots : List Slot) : Layout :=
  ⟨slots, false⟩

/-- A layout with one effective address in it. -/
def withSlot (slot : Except Error Slot) (layout : Slot → Layout) : Except Error Layout :=
  slot.map layout

/-- The slots of MOVE. -/
def moveSlots (op : Opcode) (code : InstructionCode) : Except Error Layout :=
  match code.size, code.overload with
  | some .word, 1 =>
      withSlot (requiredSlot op "source" .data code.size) fun source =>
        forward [source, .fixed .ccr]
  | some .word, 3 =>
      withSlot (requiredSlot op "source" .data code.size) fun source =>
        forward [source, .fixed .sr]
  | some .word, 2 =>
      withSlot (requiredSlot op "destination" .dataAlterable none) fun destination =>
        forward [.fixed .sr, destination]
  | some .long, 1 => .ok (forward [.addressRegister op.reg, .fixed .usp])
  | some .long, 2 => .ok (forward [.fixed .usp, .addressRegister op.reg])
  | _, _ => do
      let source ← sourceSlot op code.size
      let destination ← addressSlot op op.opmode op.upper code.size
      let destination ← destination.require op "destination" .dataAlterable
      .ok (forward [source, destination])

/-- The slots of MOVEM. The mask comes first in the code, whatever the direction. -/
def movemSlots (op : Opcode) (code : InstructionCode) : Except Error Layout :=
  if code.overload = 0 then
    match op.addressMode? with
    | some .postIncrement => invalidOperand op "MOVEM cannot store through (An)+"
    | mode =>
        withSlot (requiredSlot op "destination" .memoryAlterable none) fun destination =>
          forward [.registerList (mode = some .preDecrement), destination]
  else
    match op.addressMode? with
    | some .postIncrement =>
        withSlot (sourceSlot op none) fun source => ⟨[.registerList false, source], true⟩
    | _ =>
        withSlot (requiredSlot op "source" .control none) fun source =>
          ⟨[.registerList false, source], true⟩

/-- The slots of MOVEP. -/
def movepSlots (op : Opcode) (code : InstructionCode) : Layout :=
  let memory := Slot.address .displaced op.reg .word
  if code.overload = 0 then forward [.dataRegister op.upper, memory]
  else forward [memory, .dataRegister op.upper]

/-- The slots of an operation on immediate data. Its second form works on a status register. -/
def immediateSlots (op : Opcode) (code : InstructionCode) : Except Error Layout :=
  match code.size with
  | none => invalidOperand op "immediate operation without a size"
  | some size =>
      if code.overload = 0 then
        withSlot (requiredSlot op "destination" .dataAlterable none) fun destination =>
          forward [.immediate size, destination]
      else if size = .byte then .ok (forward [.immediate size, .fixed .ccr])
      else .ok (forward [.immediate size, .fixed .sr])

/-- The slots of an operation with a data register and an effective address, in two directions. -/
def directedSlots (op : Opcode) (code : InstructionCode) : Except Error Layout :=
  if code.overload = 0 then
    withSlot (sourceSlot op code.size) fun source => forward [source, .dataRegister op.upper]
  else
    withSlot (requiredSlot op "destination" .memoryAlterable none) fun destination =>
      forward [.dataRegister op.upper, destination]

/-- The slots of a bit operation. -/
def bitSlots (op : Opcode) (code : InstructionCode) : Except Error Layout :=
  let number := if code.overload = 0 then Slot.dataRegister op.upper else .immediate .byte
  let capability := if code.mnemonic = .btst then Capability.data else .dataAlterable
  withSlot (requiredSlot op "destination" capability none) fun destination =>
    forward [number, destination]

/-- The slots of a shift or rotation. -/
def shiftSlots (op : Opcode) (code : InstructionCode) : Except Error Layout :=
  if code.overload = 0 then
    let count := if op.bit5 then Slot.dataRegister op.upper else .fixed (.quick op.quickData)
    .ok (forward [count, .dataRegister op.reg])
  else
    withSlot (requiredSlot op "destination" .memoryAlterable none) fun destination =>
      forward [destination]

/-- The slots of an instruction with one effective address and nothing else. -/
def singleSlot (op : Opcode) (role : String) (capability : Capability) (size : Option Size) :
    Except Error Layout :=
  withSlot (requiredSlot op role capability size) fun slot => forward [slot]

/-- The slots of a classified opcode. -/
def slots (op : Opcode) (code : InstructionCode) : Except Error Layout :=
  match code.mnemonic with
  | .move => moveSlots op code
  | .movea | .adda | .suba | .cmpa =>
      withSlot (sourceSlot op code.size) fun source => forward [source, .addressRegister op.upper]
  | .moveq => .ok (forward [.fixed (.quick op.lowByte), .dataRegister op.upper])
  | .movem => movemSlots op code
  | .movep => .ok (movepSlots op code)
  | .add | .sub | .and | .or => directedSlots op code
  | .cmp =>
      withSlot (sourceSlot op code.size) fun source => forward [source, .dataRegister op.upper]
  | .eor =>
      withSlot (requiredSlot op "destination" .dataAlterable none) fun destination =>
        forward [.dataRegister op.upper, destination]
  | .cmpm =>
      .ok (forward [.fixed (.address (.postIncrement op.reg)),
        .fixed (.address (.postIncrement op.upper))])
  | .ori | .andi | .eori | .addi | .subi | .cmpi => immediateSlots op code
  | .addq | .subq =>
      withSlot (requiredSlot op "destination" .alterable none) fun destination =>
        forward [.fixed (.quick op.quickData), destination]
  | .addx | .subx | .abcd | .sbcd =>
      if code.overload = 0 then .ok (forward [.dataRegister op.reg, .dataRegister op.upper])
      else .ok (forward [.fixed (.address (.preDecrement op.reg)),
        .fixed (.address (.preDecrement op.upper))])
  | .mulu | .muls | .divu | .divs | .chk =>
      withSlot (requiredSlot op "source" .data (some .word)) fun source =>
        forward [source, .dataRegister op.upper]
  | .shift _ _ => shiftSlots op code
  | .btst | .bchg | .bclr | .bset => bitSlots op code
  | .neg | .negx | .not | .clr | .tst => singleSlot op "destination" .dataAlterable code.size
  | .nbcd | .tas | .set _ => singleSlot op "destination" .dataAlterable none
  | .ext | .swap => .ok (forward [.dataRegister op.reg])
  | .decrementBranch _ => .ok (forward [.dataRegister op.reg, .displacement])
  | .branch _ =>
      if code.size = some .word then .ok (forward [.displacement])
      else .ok (forward [.fixed (.displacement .byte op.lowByte)])
  | .jmp | .jsr | .pea => singleSlot op "target" .control none
  | .lea =>
      withSlot (requiredSlot op "source" .control none) fun source =>
        forward [source, .addressRegister op.upper]
  | .exg =>
      match code.overload with
      | 0 => .ok (forward [.dataRegister op.upper, .dataRegister op.reg])
      | 1 => .ok (forward [.addressRegister op.upper, .addressRegister op.reg])
      | _ => .ok (forward [.dataRegister op.upper, .addressRegister op.reg])
  | .link => .ok (forward [.addressRegister op.reg, .immediate .word])
  | .unlk => .ok (forward [.addressRegister op.reg])
  | .trap => .ok (forward [.fixed (.vector op.trapNumber)])
  | .stop => .ok (forward [.status])
  | .illegal | .nop | .reset | .rte | .rtr | .rts | .trapv => .ok (forward [])

end AmigaBinary.M68k
