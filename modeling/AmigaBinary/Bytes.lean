import AmigaBinary.Error

/-!
# Byte strings and big-endian words

All formats here are big-endian. A byte string is a list, so that a reader that walks through
one recurses on it; reads at an offset go through `drop` and fail with what is missing.
-/

namespace AmigaBinary

/-- A byte string. -/
abbrev Bytes := List UInt8

namespace Bytes

/-! ## 1. Words and their bytes -/

/-- The 16-bit word with the given high and low byte. -/
def word16 (high low : UInt8) : UInt16 :=
  high.toUInt16 <<< 8 ||| low.toUInt16

/-- The 32-bit word with the given high and low half. -/
def long (high low : UInt16) : UInt32 :=
  high.toUInt32 <<< 16 ||| low.toUInt32

/-- The 32-bit word made of four bytes, the first being the highest. -/
def word32 (a b c d : UInt8) : UInt32 :=
  long (word16 a b) (word16 c d)

/-- The two bytes of a 16-bit word, high byte first. -/
def ofWord16 (w : UInt16) : Bytes :=
  [(w >>> 8).toUInt8, w.toUInt8]

/-- The four bytes of a 32-bit word, highest byte first. -/
def ofWord32 (w : UInt32) : Bytes :=
  ofWord16 (w >>> 16).toUInt16 ++ ofWord16 w.toUInt16

/-! ## 2. Signed readings -/

/-- A byte read in two's complement. -/
def signed8 (b : UInt8) : Int :=
  if b.toNat < 0x80 then b.toNat else (b.toNat : Int) - 0x100

/-- A 16-bit word read in two's complement. -/
def signed16 (w : UInt16) : Int :=
  if w.toNat < 0x8000 then w.toNat else (w.toNat : Int) - 0x10000

/-- A 32-bit word read in two's complement. -/
def signed32 (w : UInt32) : Int :=
  if w.toNat < 0x80000000 then w.toNat else (w.toNat : Int) - 0x100000000

/-! ## 3. Reads at an offset -/

/-- The 16-bit word at `offset`. -/
def readWord16 (data : Bytes) (offset : Nat) : Except Error UInt16 :=
  match data.drop offset with
  | a :: b :: _ => .ok (word16 a b)
  | rest => .error (.truncated offset 2 rest.length)

/-- The 32-bit word at `offset`. -/
def readWord32 (data : Bytes) (offset : Nat) : Except Error UInt32 :=
  match data.drop offset with
  | a :: b :: c :: d :: _ => .ok (word32 a b c d)
  | rest => .error (.truncated offset 4 rest.length)

/-- The `length` bytes from `offset` on. Even an empty read has to lie inside the data. -/
def readSlice (data : Bytes) (offset length : Nat) : Except Error Bytes :=
  if offset + length ≤ data.length then
    .ok ((data.drop offset).take length)
  else
    .error (.truncated offset length (data.length - offset))

/-! ## 4. Padding and trimming -/

/-- Zero bytes behind `data` up to a multiple of four. -/
def padToLong (data : Bytes) : Bytes :=
  data ++ List.replicate ((4 - data.length % 4) % 4) 0

/-- The data without its final NUL bytes. -/
def trimNuls (data : Bytes) : Bytes :=
  (data.reverse.dropWhile (· == 0)).reverse

/-- The bytes of an ASCII literal. -/
def ascii (text : String) : Bytes :=
  text.toList.map fun c => UInt8.ofNat c.toNat

end Bytes

end AmigaBinary
