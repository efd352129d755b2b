import AmigaBinary.Text.Hexadecimal
import AmigaBinary.M68k.EffectiveAddress
import AmigaBinary.M68k.Mnemonic

/-!
# Assembler text

The text of operands and instructions. Displacements and addresses are hexadecimal behind a
dollar sign, immediate data below ten is decimal, and runs of three or more registers collapse
to a range.
-/

namespace AmigaBinary.M68k

/-! ## 1. Numbers -/

/-- Hexadecimal with a minus sign in front of the dollar sign of a negative number. -/
def signedHex (value : Int) : String :=
  if value < 0 then "-$" ++ Text.hex value.natAbs else "$" ++ Text.hex value.natAbs

/-- Immediate data: decimal below ten in absolute value, hexadecimal from there on. -/
def immediateText (value : Int) : String :=
  if value.natAbs < 10 then "#" ++ toString value else "#" ++ signedHex value

/-! ## 2. Register sets -/

/-- One register of a bank, such as `D3`. -/
def registerName (bank : Char) (reg : Nat) : String :=
  String.singleton bank ++ toString reg

/-- The text of the registers from `first` to `last` of a bank, one entry for each part between
    slashes: a run of three or more is a range, a shorter run is listed. -/
def runText (bank : Char) (first last : Nat) : List String :=
  if last = first then [registerName bank first]
  else if last = first + 1 then [registerName bank first, registerName bank last]
  else [registerName bank first ++ "-" ++ registerName bank last]

/-- The runs of set bits in a bank, given from register `reg` on; `start` is the first register
    of the run that is still open. -/
def bankRuns (bank : Char) : List Bool → Nat → Option Nat → List String
  | [], _, none => []
  | [], reg, some start => runText bank start (reg - 1)
  | true :: bits, reg, none => bankRuns bank bits (reg + 1) (some reg)
  | true :: bits, reg, some start => bankRuns bank bits (reg + 1) (some start)
  | false :: bits, reg, none => bankRuns bank bits (reg + 1) none
  | false :: bits, reg, some start => runText bank start (reg - 1) ++ bankRuns bank bits (reg + 1) none

/-- Eight bits of a register mask, from bit `low` on. -/
def maskBits (mask : UInt16) (low : Nat) : List Bool :=
  (List.range 8).map fun i => mask.toNat.testBit (low + i)

/-- Register set notation such as `D0-D3/D6/D7/A5`; the empty set is a pair of braces. -/
def registerListText (mask : UInt16) : String :=
  if mask = 0 then "\x7b\x7d"
  else String.intercalate "/"
    (bankRuns 'D' (maskBits mask 0) 0 none ++ bankRuns 'A' (maskBits mask 8) 0 none)

/-! ## 3. Operands -/

/-- An index register; a long one is marked. -/
def IndexRegister.text (index : IndexRegister) : String :=
  registerName (if index.isAddress then 'A' else 'D') index.reg
    ++ (if index.isLong then ".L" else "")

/-- An effective address. A 16-bit address is shown as the 32-bit address that it stands for. -/
def EffectiveAddress.text : EffectiveAddress → String
  | .dataRegister reg => registerName 'D' reg
  | .addressRegister reg => registerName 'A' reg
  | .indirect reg => "(" ++ registerName 'A' reg ++ ")"
  | .postIncrement reg => "(" ++ registerName 'A' reg ++ ")+"
  | .preDecrement reg => "-(" ++ registerName 'A' reg ++ ")"
  | .displaced reg displacement =>
      "(" ++ signedHex displacement ++ "," ++ registerName 'A' reg ++ ")"
  | .indexed reg displacement index =>
      "(" ++ signedHex displacement ++ "," ++ registerName 'A' reg ++ "," ++ index.text ++ ")"
  | .pcDisplaced displacement => "(" ++ signedHex displacement ++ ",PC)"
  | .pcIndexed displacement index => "(" ++ signedHex displacement ++ ",PC," ++ index.text ++ ")"
  | .absoluteWord address => "($" ++ Text.hex (address % 0x100000000).toNat ++ ").W"
  | .absoluteLong address => "($" ++ Text.hex address.toNat ++ ").L"
  | .immediate _ value => immediateText value

/-- An operand. -/
def Operand.text : Operand → String
  | .address ea => ea.text
  | .ccr => "CCR"
  | .sr => "SR"
  | .usp => "USP"
  | .registerList mask => registerListText mask
  | .displacement _ value => signedHex value
  | .quick value => immediateText value
  | .vector number => "#" ++ toString number

/-! ## 4. Instructions -/

/-- An instruction: its mnemonic, a size if there is one, and the operands between commas. -/
def instructionText (mnemonic : Mnemonic) (size : Option Size) (operands : List Operand) : String :=
  let sizeText := match size with
    | some s => "." ++ s.letter
    | none => ""
  let operandText := match operands with
    | [] => ""
    | _ :: _ => " " ++ String.intercalate "," (operands.map Operand.text)
  mnemonic.name ++ sizeText ++ operandText

/-- A word that is no instruction, as a constant. -/
def dataWordText (opcode : UInt16) : String :=
  "DC.W $" ++ Text.hexFixed 4 opcode.toNat

end AmigaBinary.M68k
