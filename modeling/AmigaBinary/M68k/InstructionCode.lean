import AmigaBinary.M68k.Mnemonic
import AmigaBinary.M68k.Opcode

/-!
# Instruction codes

`classify` maps an opcode word to the form of instruction that it starts, or to nothing when it is
no instruction of a plain 68000. The code of a form is its mnemonic, the operation size, the
number of extension words that come before those of an effective address, and a number that tells
forms apart which share all of these, such as `ADD <ea>,Dn` and `ADD Dn,<ea>`.
-/

namespace AmigaBinary.M68k

/-- The identity of a form of instruction. -/
structure InstructionCode where
  mnemonic : Mnemonic
  size : Option Size
  /-- Extension words in front of those of an effective address. -/
  extensionWords : Nat
  overload : Nat
  deriving DecidableEq, Repr

namespace InstructionCode

/-! ## 1. The forms -/

/-- A form without extension words of its own. -/
def plain (mnemonic : Mnemonic) (size : Size) : InstructionCode :=
  ⟨mnemonic, some size, 0, 0⟩

/-- A second form of the same mnemonic and size. -/
def second (mnemonic : Mnemonic) (size : Size) : InstructionCode :=
  ⟨mnemonic, some size, 0, 1⟩

/-- A form without a size. -/
def sizeless (mnemonic : Mnemonic) : InstructionCode :=
  ⟨mnemonic, none, 0, 0⟩

/-- An operation on immediate data of the given size. -/
def withImmediate (mnemonic : Mnemonic) (size : Size) : InstructionCode :=
  ⟨mnemonic, some size, size.immediateWords, 0⟩

/-- A logical operation on the condition codes. -/
def onCcr (mnemonic : Mnemonic) : InstructionCode :=
  ⟨mnemonic, some .byte, 1, 1⟩

/-- A logical operation on the status register. -/
def onSr (mnemonic : Mnemonic) : InstructionCode :=
  ⟨mnemonic, some .word, 1, 1⟩

/-- A bit operation whose bit number is in a register. -/
def dynamicBit (mnemonic : Mnemonic) : InstructionCode :=
  ⟨mnemonic, none, 0, 0⟩

/-- A bit operation whose bit number is immediate data. -/
def staticBit (mnemonic : Mnemonic) : InstructionCode :=
  ⟨mnemonic, none, 1, 1⟩

def moveToCcr : InstructionCode := ⟨.move, some .word, 0, 1⟩
def moveFromSr : InstructionCode := ⟨.move, some .word, 0, 2⟩
def moveToSr : InstructionCode := ⟨.move, some .word, 0, 3⟩
def moveToUsp : InstructionCode := ⟨.move, some .long, 0, 1⟩
def moveFromUsp : InstructionCode := ⟨.move, some .long, 0, 2⟩

/-- MOVEM from registers to memory. -/
def movemToMemory (size : Size) : InstructionCode := ⟨.movem, some size, 1, 0⟩

/-- MOVEM from memory to registers. -/
def movemToRegisters (size : Size) : InstructionCode := ⟨.movem, some size, 1, 1⟩

/-- MOVEP from a register to memory. -/
def movepToMemory (size : Size) : InstructionCode := ⟨.movep, some size, 1, 0⟩

/-- MOVEP from memory to a register. -/
def movepToRegister (size : Size) : InstructionCode := ⟨.movep, some size, 1, 1⟩

/-- A branch with its displacement in the opcode. -/
def shortBranch (condition : Condition) : InstructionCode := ⟨.branch condition, some .byte, 0, 0⟩

/-- A branch with its displacement in an extension word. -/
def wordBranch (condition : Condition) : InstructionCode := ⟨.branch condition, some .word, 1, 0⟩

/-- A loop instruction. -/
def loop (condition : Condition) : InstructionCode := ⟨.decrementBranch condition, some .word, 1, 0⟩

/-- A shift or rotation of a word in memory by one. -/
def memoryShift (kind : ShiftKind) (direction : Direction) : InstructionCode :=
  second (.shift kind direction) .word

def exgData : InstructionCode := ⟨.exg, some .long, 0, 0⟩
def exgAddress : InstructionCode := ⟨.exg, some .long, 0, 1⟩
def exgMixed : InstructionCode := ⟨.exg, some .long, 0, 2⟩
def link : InstructionCode := ⟨.link, none, 1, 0⟩
def stop : InstructionCode := ⟨.stop, none, 1, 0⟩

/-- A form in each of the three sizes. -/
def eachSize (form : Size → InstructionCode) : List InstructionCode :=
  [form .byte, form .word, form .long]

/-- A form for words and for longs. -/
def wordAndLong (form : Size → InstructionCode) : List InstructionCode :=
  [form .word, form .long]

/-- Every form that `classify` answers with. -/
def all : List InstructionCode :=
  eachSize (plain .move)
  ++ [moveToCcr, moveFromSr, moveToSr, moveToUsp, moveFromUsp]
  ++ wordAndLong (plain .movea)
  ++ [plain .moveq .long]
  ++ wordAndLong movemToMemory ++ wordAndLong movemToRegisters
  ++ wordAndLong movepToMemory ++ wordAndLong movepToRegister
  ++ [Mnemonic.ori, .andi, .eori].flatMap (fun m => eachSize (withImmediate m) ++ [onCcr m, onSr m])
  ++ [Mnemonic.subi, .addi, .cmpi].flatMap (fun m => eachSize (withImmediate m))
  ++ [Mnemonic.btst, .bchg, .bclr, .bset].flatMap (fun m => [dynamicBit m, staticBit m])
  ++ [Mnemonic.addq, .subq].flatMap (fun m => eachSize (plain m))
  ++ Condition.all.flatMap (fun c => [shortBranch c, wordBranch c])
  ++ Condition.all.map (fun c => plain (.set c) .byte)
  ++ Condition.all.map loop
  ++ [ShiftKind.arithmetic, .logical, .rotateExtended, .rotate].flatMap (fun k =>
      [Direction.right, .left].flatMap fun d => eachSize (plain (.shift k d)) ++ [memoryShift k d])
  ++ [(Mnemonic.add, Mnemonic.adda, Mnemonic.addx), (.sub, .suba, .subx)].flatMap (fun (m, a, x) =>
      eachSize (plain m) ++ eachSize (second m) ++ wordAndLong (plain a)
      ++ eachSize (plain x) ++ eachSize (second x))
  ++ eachSize (plain .cmp) ++ wordAndLong (plain .cmpa) ++ eachSize (plain .cmpm)
  ++ [Mnemonic.mulu, .muls, .divu, .divs].map (fun m => plain m .word)
  ++ [Mnemonic.and, .or].flatMap (fun m => eachSize (plain m) ++ eachSize (second m))
  ++ eachSize (plain .eor) ++ eachSize (plain .not)
  ++ [Mnemonic.abcd, .sbcd].flatMap (fun m => [plain m .byte, second m .byte])
  ++ [plain .nbcd .byte]
  ++ [Mnemonic.neg, .negx, .clr, .tst].flatMap (fun m => eachSize (plain m))
  ++ [plain .tas .byte] ++ wordAndLong (plain .ext) ++ [plain .swap .word]
  ++ [sizeless .jmp, sizeless .jsr, plain .lea .long, plain .pea .long, plain .chk .word]
  ++ [exgData, exgAddress, exgMixed, link]
  ++ [Mnemonic.unlk, .trap, .trapv, .rte, .rts, .rtr, .nop, .reset].map sizeless
  ++ [stop, sizeless .illegal]

/-! ## 2. Views of a form -/

/-- One number for a form: overload, extension words, size and mnemonic, from the top bits down. -/
def key (code : InstructionCode) : Nat :=
  let size := match code.size with
    | some s => s.index
    | none => 3
  code.overload * 0x1000 + code.extensionWords * 0x400 + size * 0x100 + code.mnemonic.index

/-- Mnemonics that are written without a size: branches, bit operations, decimal arithmetic and
    address computations have only one. -/
def writesNoSize : Mnemonic → Bool
  | .branch _ | .decrementBranch _ | .set _ => true
  | .abcd | .sbcd | .nbcd | .btst | .bchg | .bclr | .bset | .tas | .swap | .jmp | .jsr | .link
  | .unlk | .pea | .lea | .exg | .trap | .chk | .stop => true
  | _ => false

/-- The size written behind the mnemonic. -/
def displaySize (code : InstructionCode) : Option Size :=
  if writesNoSize code.mnemonic then none else code.size

end InstructionCode

/-! ## 3. Classification, line by line -/

open InstructionCode

/-- The form in the size of the size field; a size field of 3 is none. -/
def sized (form : Size → InstructionCode) (op : Opcode) : Option InstructionCode :=
  (Size.ofField? op.sizeField).map form

/-- Whether there is a mode and it has the capability. -/
def allows (mode : Option Mode) (capability : Capability) : Bool :=
  match mode with
  | some m => m.can capability
  | none => false

/-- The code, if the effective address has the capability. -/
def requiring (op : Opcode) (capability : Capability) (code : InstructionCode) :
    Option InstructionCode :=
  if allows op.addressMode? capability then some code else none

/-- The form in the size of the size field, if the effective address has the capability. -/
def sizedRequiring (op : Opcode) (capability : Capability) (form : Size → InstructionCode) :
    Option InstructionCode :=
  if allows op.addressMode? capability then sized form op else none

/-- Bit operations, by the field that selects one. Only a test may read a source that cannot be
    written, and even a test may not read immediate data. -/
def classifyBit (op : Opcode) (form : Mnemonic → InstructionCode) : Option InstructionCode :=
  match op.sizeField with
  | 0 =>
      if allows op.addressMode? .data && !allows op.addressMode? .immediate then
        some (form .btst)
      else none
  | 1 => requiring op .dataAlterable (form .bchg)
  | 2 => requiring op .dataAlterable (form .bclr)
  | _ => requiring op .dataAlterable (form .bset)

/-- An operation on immediate data. -/
def classifyImmediate (op : Opcode) (mnemonic : Mnemonic) : Option InstructionCode :=
  sizedRequiring op .dataAlterable (withImmediate mnemonic)

/-- A logical operation on immediate data. An immediate destination stands for the condition
    codes (byte) or the status register (word). -/
def classifyLogicalImmediate (op : Opcode) (mnemonic : Mnemonic) : Option InstructionCode :=
  match op.addressMode?, op.sizeField with
  | some .immediate, 0 => some (onCcr mnemonic)
  | some .immediate, 1 => some (onSr mnemonic)
  | _, _ => classifyImmediate op mnemonic

/-- MOVEP, whose direction and size are in the operation mode. -/
def classifyMovep (op : Opcode) : InstructionCode :=
  match op.sizeField with
  | 0 => movepToRegister .word
  | 1 => movepToRegister .long
  | 2 => movepToMemory .word
  | _ => movepToMemory .long

/-- Line 0: bit operations, MOVEP and operations on immediate data. -/
def classifyLine0 (op : Opcode) : Option InstructionCode :=
  if op.bit8 then
    if op.mode = 1 then some (classifyMovep op) else classifyBit op dynamicBit
  else
    match op.upper with
    | 0 => classifyLogicalImmediate op .ori
    | 1 => classifyLogicalImmediate op .andi
    | 2 => classifyImmediate op .subi
    | 3 => classifyImmediate op .addi
    | 4 => classifyBit op staticBit
    | 5 => classifyLogicalImmediate op .eori
    | 6 => classifyImmediate op .cmpi
    | _ => none

/-- Whether an operand of this size can be read in this mode: address registers have no bytes. -/
def readable (mode : Option Mode) (size : Option Size) : Bool :=
  match mode with
  | some m => !(size = some .byte && m.can .addressRegister)
  | none => false

/-- Lines 1 to 3: MOVE and MOVEA in one size. -/
def classifyMove (op : Opcode) (size : Size) : Option InstructionCode :=
  if readable op.addressMode? (some size) then
    match Mode.ofFields? op.opmode op.upper with
    | some .addressRegister => if size = .byte then none else some (plain .movea size)
    | some destination => if destination.can .alterable then some (plain .move size) else none
    | none => none
  else none

/-- The instructions of line 4 without an effective address, by mode and register. -/
def classifyControl (op : Opcode) : Option InstructionCode :=
  match op.mode, op.reg with
  | 0, _ | 1, _ => some (sizeless .trap)
  | 2, _ => some link
  | 3, _ => some (sizeless .unlk)
  | 4, _ => some moveToUsp
  | 5, _ => some moveFromUsp
  | 6, 0 => some (sizeless .reset)
  | 6, 1 => some (sizeless .nop)
  | 6, 2 => some stop
  | 6, 3 => some (sizeless .rte)
  | 6, 5 => some (sizeless .rts)
  | 6, 6 => some (sizeless .trapv)
  | 6, 7 => some (sizeless .rtr)
  | _, _ => none

/-- MOVEM to memory, or EXT in a data register. A store cannot go through `(An)+`. -/
def classifyExtOrStore (op : Opcode) (size : Size) : Option InstructionCode :=
  match op.addressMode? with
  | some .dataRegister => some (plain .ext size)
  | some .postIncrement => none
  | some mode => if mode.can .memoryAlterable then some (movemToMemory size) else none
  | none => none

/-- MOVEM to registers. A load cannot come from `-(An)`. -/
def classifyLoad (op : Opcode) (size : Size) : Option InstructionCode :=
  match op.addressMode? with
  | some .postIncrement => some (movemToRegisters size)
  | some mode => if mode.can .control then some (movemToRegisters size) else none
  | none => none

/-- Line 4: single-operand, control and multiple-register instructions. -/
def classifyLine4 (op : Opcode) : Option InstructionCode :=
  match op.upper, op.opmode with
  | _, 7 => requiring op .control (plain .lea .long)
  | _, 6 => requiring op .data (plain .chk .word)
  | 0, 3 => requiring op .dataAlterable moveFromSr
  | 2, 3 => requiring op .data moveToCcr
  | 3, 3 => requiring op .data moveToSr
  | 4, 0 => requiring op .dataAlterable (plain .nbcd .byte)
  | 4, 1 => if op.mode = 0 then some (plain .swap .word) else requiring op .control (plain .pea .long)
  | 4, 2 => classifyExtOrStore op .word
  | 4, 3 => classifyExtOrStore op .long
  | 5, 3 =>
      if op.addressMode? = some .immediate then some (sizeless .illegal)
      else requiring op .dataAlterable (plain .tas .byte)
  | 6, 2 => classifyLoad op .word
  | 6, 3 => classifyLoad op .long
  | 7, 1 => classifyControl op
  | 7, 2 => requiring op .control (sizeless .jsr)
  | 7, 3 => requiring op .control (sizeless .jmp)
  | 0, 0 | 0, 1 | 0, 2 => sizedRequiring op .dataAlterable (plain .negx)
  | 1, 0 | 1, 1 | 1, 2 => sizedRequiring op .dataAlterable (plain .clr)
  | 2, 0 | 2, 1 | 2, 2 => sizedRequiring op .dataAlterable (plain .neg)
  | 3, 0 | 3, 1 | 3, 2 => sizedRequiring op .dataAlterable (plain .not)
  | 5, 0 | 5, 1 | 5, 2 => sizedRequiring op .dataAlterable (plain .tst)
  | _, _ => none

/-- Line 5: quick arithmetic, conditional sets and loops. -/
def classifyLine5 (op : Opcode) : Option InstructionCode :=
  match Size.ofField? op.sizeField with
  | none =>
      let condition := Condition.ofField op.condition
      if op.mode = 1 then some (loop condition)
      else requiring op .dataAlterable (plain (.set condition) .byte)
  | some size =>
      if allows op.addressMode? .alterable && readable op.addressMode? (some size) then
        some (plain (if op.bit8 then .subq else .addq) size)
      else none

/-- Line 6: branches. A displacement byte of 0 announces a displacement word. -/
def classifyBranch (op : Opcode) : InstructionCode :=
  let condition := Condition.ofField op.condition
  if op.toNat % 0x100 = 0 then wordBranch condition else shortBranch condition

/-- An operation that reads any effective address into a data register. -/
def classifyToRegister (op : Opcode) (mnemonic : Mnemonic) : Option InstructionCode :=
  if readable op.addressMode? (Size.ofField? op.sizeField) then sized (plain mnemonic) op else none

/-- The code, if the effective address exists at all. -/
def requiringMode (op : Opcode) (code : InstructionCode) : Option InstructionCode :=
  if op.addressMode?.isSome then some code else none

/-- Lines 9 and D: addition and subtraction, with their address and extended forms. -/
def classifyArithmetic (op : Opcode) (mnemonic address extended : Mnemonic) :
    Option InstructionCode :=
  match op.opmode with
  | 3 => requiringMode op (plain address .word)
  | 7 => requiringMode op (plain address .long)
  | 0 | 1 | 2 => classifyToRegister op mnemonic
  | _ =>
    match op.mode with
    | 0 => sized (plain extended) op
    | 1 => sized (second extended) op
    | _ => sizedRequiring op .memoryAlterable (second mnemonic)

/-- Line B: comparisons, and the exclusive or into an effective address. -/
def classifyCompare (op : Opcode) : Option InstructionCode :=
  match op.opmode with
  | 3 => requiringMode op (plain .cmpa .word)
  | 7 => requiringMode op (plain .cmpa .long)
  | 0 | 1 | 2 => classifyToRegister op .cmp
  | _ =>
    if op.mode = 1 then sized (plain .cmpm) op
    else sizedRequiring op .dataAlterable (plain .eor)

/-- The logical operation of lines 8 and C, in either direction. -/
def classifyLogical (op : Opcode) (mnemonic : Mnemonic) : Option InstructionCode :=
  if op.bit8 then sizedRequiring op .memoryAlterable (second mnemonic)
  else sizedRequiring op .data (plain mnemonic)

/-- Line 8: division, decimal subtraction and the inclusive or. -/
def classifyLine8 (op : Opcode) : Option InstructionCode :=
  match op.opmode, op.mode with
  | 3, _ => requiring op .data (plain .divu .word)
  | 7, _ => requiring op .data (plain .divs .word)
  | 4, 0 => some (plain .sbcd .byte)
  | 4, 1 => some (second .sbcd .byte)
  | _, _ => classifyLogical op .or

/-- Line C: multiplication, decimal addition, exchanges and the logical and. -/
def classifyLineC (op : Opcode) : Option InstructionCode :=
  match op.opmode, op.mode with
  | 3, _ => requiring op .data (plain .mulu .word)
  | 7, _ => requiring op .data (plain .muls .word)
  | 4, 0 => some (plain .abcd .byte)
  | 4, 1 => some (second .abcd .byte)
  | 5, 0 => some exgData
  | 5, 1 => some exgAddress
  | 6, 1 => some exgMixed
  | _, _ => classifyLogical op .and

/-- Line E: shifts and rotations, of a register or of a word in memory. -/
def classifyShift (op : Opcode) : Option InstructionCode :=
  let direction := if op.bit8 then Direction.left else .right
  if op.sizeField = 3 then
    if op.upper < 4 then
      requiring op .memoryAlterable (memoryShift (ShiftKind.ofField op.upper) direction)
    else none
  else sized (plain (.shift (ShiftKind.ofField (op.mode % 4)) direction)) op

/-- The form of instruction that an opcode starts. Lines A and F are the unimplemented traps. -/
def classify (op : Opcode) : Option InstructionCode :=
  match op.line with
  | 0x0 => classifyLine0 op
  | 0x1 => classifyMove op .byte
  | 0x2 => classifyMove op .long
  | 0x3 => classifyMove op .word
  | 0x4 => classifyLine4 op
  | 0x5 => classifyLine5 op
  | 0x6 => some (classifyBranch op)
  | 0x7 => if op.bit8 then none else some (plain .moveq .long)
  | 0x8 => classifyLine8 op
  | 0x9 => classifyArithmetic op .sub .suba .subx
  | 0xB => classifyCompare op
  | 0xC => classifyLineC op
  | 0xD => classifyArithmetic op .add .adda .addx
  | 0xE => classifyShift op
  | _ => none

end AmigaBinary.M68k
