/-!
# Operation sizes

Operations of the 68000 work on bytes, words of 16 bits and longs of 32 bits.
-/

namespace AmigaBinary.M68k

/-- An operation size. -/
inductive Size where
  | byte
  | word
  | long
  deriving DecidableEq, Repr

namespace Size

/-- The size that a two-bit size field stands for; the value 3 stands for none. -/
def ofField? : Nat → Option Size
  | 0 => some .byte
  | 1 => some .word
  | 2 => some .long
  | _ => none

/-- The letter written behind a mnemonic. -/
def letter : Size → String
  | .byte => "B"
  | .word => "W"
  | .long => "L"

/-- The number of a size in a packed instruction code; 3 is left for instructions without one. -/
def index : Size → Nat
  | .byte => 0
  | .word => 1
  | .long => 2

/-- The extension words that immediate data of this size takes; a byte takes a whole word. -/
def immediateWords : Size → Nat
  | .byte => 1
  | .word => 1
  | .long => 2

end Size

end AmigaBinary.M68k
