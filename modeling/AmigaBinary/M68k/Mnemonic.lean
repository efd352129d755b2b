/-!
# Mnemonics of the 68000

Most mnemonics stand for themselves. Branches, decrement-and-branch loops and conditional sets
come in one form for each of the sixteen conditions, shifts and rotations in one form for each
kind and direction, so these are families with an argument.
-/

namespace AmigaBinary.M68k

/-! ## 1. Conditions and shifts -/

/-- A condition on the condition codes, in the order of the four-bit condition field. -/
inductive Condition where
  | always
  | never
  | higher
  | lowerOrSame
  | carryClear
  | carrySet
  | notEqual
  | equal
  | overflowClear
  | overflowSet
  | plus
  | minus
  | greaterOrEqual
  | lessThan
  | greaterThan
  | lessOrEqual
  deriving DecidableEq, Repr

/-- Every condition, in the order of the condition field. -/
def Condition.all : List Condition :=
  [.always, .never, .higher, .lowerOrSame, .carryClear, .carrySet, .notEqual, .equal,
   .overflowClear, .overflowSet, .plus, .minus, .greaterOrEqual, .lessThan, .greaterThan,
   .lessOrEqual]

/-- The condition that a four-bit condition field stands for. -/
def Condition.ofField : Nat → Condition
  | 0 => .always
  | 1 => .never
  | 2 => .higher
  | 3 => .lowerOrSame
  | 4 => .carryClear
  | 5 => .carrySet
  | 6 => .notEqual
  | 7 => .equal
  | 8 => .overflowClear
  | 9 => .overflowSet
  | 10 => .plus
  | 11 => .minus
  | 12 => .greaterOrEqual
  | 13 => .lessThan
  | 14 => .greaterThan
  | _ => .lessOrEqual

/-- The condition field of a condition. -/
def Condition.field : Condition → Nat
  | .always => 0
  | .never => 1
  | .higher => 2
  | .lowerOrSame => 3
  | .carryClear => 4
  | .carrySet => 5
  | .notEqual => 6
  | .equal => 7
  | .overflowClear => 8
  | .overflowSet => 9
  | .plus => 10
  | .minus => 11
  | .greaterOrEqual => 12
  | .lessThan => 13
  | .greaterThan => 14
  | .lessOrEqual => 15

/-- The letters of a condition at the end of a mnemonic. -/
def Condition.letters : Condition → String
  | .always => "T"
  | .never => "F"
  | .higher => "HI"
  | .lowerOrSame => "LS"
  | .carryClear => "CC"
  | .carrySet => "CS"
  | .notEqual => "NE"
  | .equal => "EQ"
  | .overflowClear => "VC"
  | .overflowSet => "VS"
  | .plus => "PL"
  | .minus => "MI"
  | .greaterOrEqual => "GE"
  | .lessThan => "LT"
  | .greaterThan => "GT"
  | .lessOrEqual => "LE"

/-- The kinds of shifts and rotations, in the order of the two-bit kind field. -/
inductive ShiftKind where
  | arithmetic
  | logical
  | rotateExtended
  | rotate
  deriving DecidableEq, Repr

/-- The kind that a two-bit kind field stands for. -/
def ShiftKind.ofField : Nat → ShiftKind
  | 0 => .arithmetic
  | 1 => .logical
  | 2 => .rotateExtended
  | _ => .rotate

/-- The letters of a kind at the start of a mnemonic. -/
def ShiftKind.letters : ShiftKind → String
  | .arithmetic => "AS"
  | .logical => "LS"
  | .rotateExtended => "ROX"
  | .rotate => "RO"

/-- The direction of a shift or rotation. -/
inductive Direction where
  | right
  | left
  deriving DecidableEq, Repr

/-- The letter of a direction at the end of a mnemonic. -/
def Direction.letter : Direction → String
  | .right => "R"
  | .left => "L"

/-! ## 2. Mnemonics -/

/-- An instruction name of the 68000. -/
inductive Mnemonic where
  | abcd
  | add
  | adda
  | addi
  | addq
  | addx
  | and
  | andi
  | bchg
  | bclr
  | bset
  | btst
  | chk
  | clr
  | cmp
  | cmpa
  | cmpi
  | cmpm
  | divs
  | divu
  | eor
  | eori
  | exg
  | ext
  | illegal
  | jmp
  | jsr
  | lea
  | link
  | move
  | movea
  | movem
  | movep
  | moveq
  | muls
  | mulu
  | nbcd
  | neg
  | negx
  | nop
  | not
  | or
  | ori
  | pea
  | reset
  | rte
  | rtr
  | rts
  | sbcd
  | stop
  | sub
  | suba
  | subi
  | subq
  | subx
  | swap
  | tas
  | trap
  | trapv
  | tst
  | unlk
  /-- BRA, BSR and the conditional branches. -/
  | branch (condition : Condition)
  /-- The loop instructions that count a data register down. -/
  | decrementBranch (condition : Condition)
  /-- The instructions that set a byte to a condition. -/
  | set (condition : Condition)
  | shift (kind : ShiftKind) (direction : Direction)
  deriving DecidableEq, Repr

namespace Mnemonic

/-- Assembler spelling. The branches on the conditions T and F are called BRA and BSR. -/
def name : Mnemonic → String
  | .branch .always => "BRA"
  | .branch .never => "BSR"
  | .branch condition => "B" ++ condition.letters
  | .decrementBranch condition => "DB" ++ condition.letters
  | .set condition => "S" ++ condition.letters
  | .shift kind direction => kind.letters ++ direction.letter
  | .abcd => "ABCD"
  | .add => "ADD"
  | .adda => "ADDA"
  | .addi => "ADDI"
  | .addq => "ADDQ"
  | .addx => "ADDX"
  | .and => "AND"
  | .andi => "ANDI"
  | .bchg => "BCHG"
  | .bclr => "BCLR"
  | .bset => "BSET"
  | .btst => "BTST"
  | .chk => "CHK"
  | .clr => "CLR"
  | .cmp => "CMP"
  | .cmpa => "CMPA"
  | .cmpi => "CMPI"
  | .cmpm => "CMPM"
  | .divs => "DIVS"
  | .divu => "DIVU"
  | .eor => "EOR"
  | .eori => "EORI"
  | .exg => "EXG"
  | .ext => "EXT"
  | .illegal => "ILLEGAL"
  | .jmp => "JMP"
  | .jsr => "JSR"
  | .lea => "LEA"
  | .link => "LINK"
  | .move => "MOVE"
  | .movea => "MOVEA"
  | .movem => "MOVEM"
  | .movep => "MOVEP"
  | .moveq => "MOVEQ"
  | .muls => "MULS"
  | .mulu => "MULU"
  | .nbcd => "NBCD"
  | .neg => "NEG"
  | .negx => "NEGX"
  | .nop => "NOP"
  | .not => "NOT"
  | .or => "OR"
  | .ori => "ORI"
  | .pea => "PEA"
  | .reset => "RESET"
  | .rte => "RTE"
  | .rtr => "RTR"
  | .rts => "RTS"
  | .sbcd => "SBCD"
  | .stop => "STOP"
  | .sub => "SUB"
  | .suba => "SUBA"
  | .subi => "SUBI"
  | .subq => "SUBQ"
  | .subx => "SUBX"
  | .swap => "SWAP"
  | .tas => "TAS"
  | .trap => "TRAP"
  | .trapv => "TRAPV"
  | .tst => "TST"
  | .unlk => "UNLK"

/-- Every mnemonic, in alphabetical order of the spelling. -/
def all : List Mnemonic :=
  [.abcd, .add, .adda, .addi, .addq, .addx, .and, .andi, .shift .arithmetic .left,
   .shift .arithmetic .right, .branch .carryClear, .bchg, .bclr, .branch .carrySet,
   .branch .equal, .branch .greaterOrEqual, .branch .greaterThan, .branch .higher,
   .branch .lessOrEqual, .branch .lowerOrSame, .branch .lessThan, .branch .minus,
   .branch .notEqual, .branch .plus, .branch .always, .bset, .branch .never, .btst,
   .branch .overflowClear, .branch .overflowSet, .chk, .clr, .cmp, .cmpa, .cmpi, .cmpm,
   .decrementBranch .carryClear, .decrementBranch .carrySet, .decrementBranch .equal,
   .decrementBranch .never, .decrementBranch .greaterOrEqual, .decrementBranch .greaterThan,
   .decrementBranch .higher, .decrementBranch .lessOrEqual, .decrementBranch .lowerOrSame,
   .decrementBranch .lessThan, .decrementBranch .minus, .decrementBranch .notEqual,
   .decrementBranch .plus, .decrementBranch .always, .decrementBranch .overflowClear,
   .decrementBranch .overflowSet, .divs, .divu, .eor, .eori, .exg, .ext, .illegal, .jmp, .jsr,
   .lea, .link, .shift .logical .left, .shift .logical .right, .move, .movea, .movem, .movep,
   .moveq, .muls, .mulu, .nbcd, .neg, .negx, .nop, .not, .or, .ori, .pea, .reset,
   .shift .rotate .left, .shift .rotate .right, .shift .rotateExtended .left,
   .shift .rotateExtended .right, .rte, .rtr, .rts, .sbcd, .set .carryClear, .set .carrySet,
   .set .equal, .set .never, .set .greaterOrEqual, .set .greaterThan, .set .higher,
   .set .lessOrEqual, .set .lowerOrSame, .set .lessThan, .set .minus, .set .notEqual, .set .plus,
   .set .always, .stop, .sub, .suba, .subi, .subq, .subx, .set .overflowClear, .set .overflowSet,
   .swap, .tas, .trap, .trapv, .tst, .unlk]

/-- The place of a mnemonic in the alphabetical list. -/
def index (m : Mnemonic) : Nat :=
  all.idxOf m

/-- The mnemonic with the given spelling. -/
def ofName? (spelling : String) : Option Mnemonic :=
  all.find? (·.name == spelling)

/-! ## 3. Families -/

/-- BRA, BSR or a conditional branch. -/
def isBranch : Mnemonic → Bool
  | .branch _ => true
  | _ => false

/-- A loop instruction that counts a data register down. -/
def isDecrementBranch : Mnemonic → Bool
  | .decrementBranch _ => true
  | _ => false

/-- An instruction that sets a byte to a condition. -/
def isSet : Mnemonic → Bool
  | .set _ => true
  | _ => false

/-- A shift or rotation. -/
def isShift : Mnemonic → Bool
  | .shift _ _ => true
  | _ => false

/-- Execution never continues with the following instruction. -/
def endsFlow : Mnemonic → Bool
  | .jmp | .branch .always | .rts | .rtr | .rte => true
  | _ => false

end Mnemonic

end AmigaBinary.M68k
