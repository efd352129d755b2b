import AmigaBinary.Bytes

/-!
# Bit streams

A packed stream is a list of bits in the order in which they are read. Streams are stored
backwards, as words from the end of the packed data to its start; the bits of a word come lowest
first or highest first, depending on the packer. Values are assembled from their highest bit on.
-/

namespace AmigaBinary.Decrunch

/-! ## 1. Words read backwards -/

/-- The 32-bit words of reversed data, the last word of the data first. -/
def longsOfReversed : Bytes → List UInt32
  | d :: c :: b :: a :: rest => Bytes.word32 a b c d :: longsOfReversed rest
  | _ => []

/-- The 32-bit words of the data, from its end to its start; up to three bytes are left over. -/
def longsBackward (data : Bytes) : List UInt32 :=
  longsOfReversed data.reverse

/-- The 16-bit words of reversed data, the last word of the data first. -/
def wordsOfReversed : Bytes → List UInt16
  | b :: a :: rest => Bytes.word16 a b :: wordsOfReversed rest
  | _ => []

/-- The 16-bit words of the data, from its end to its start; one byte may be left over. -/
def wordsBackward (data : Bytes) : List UInt16 :=
  wordsOfReversed data.reverse

/-! ## 2. Bits of a number -/

/-- The lowest `width` bits of a number, lowest bit first. -/
def lowestFirst (width n : Nat) : List Bool :=
  (List.range width).map n.testBit

/-- The lowest `width` bits of a number, highest bit first. -/
def highestFirst (width n : Nat) : List Bool :=
  (lowestFirst width n).reverse

/-! ## 3. Reading values -/

/-- The value that the next `count` bits append to `high`, and the bits behind them. -/
def readOnto (exhausted : Error) : Nat → Nat → List Bool → Except Error (Nat × List Bool)
  | high, 0, bits => .ok (high, bits)
  | high, count + 1, bit :: bits => readOnto exhausted (2 * high + bit.toNat) count bits
  | _, _ + 1, [] => .error exhausted

/-- The value of the next `count` bits, and the bits behind them. -/
def readBits (exhausted : Error) (count : Nat) (bits : List Bool) :
    Except Error (Nat × List Bool) :=
  readOnto exhausted 0 count bits

theorem length_of_readOnto {exhausted : Error} {high count value : Nat} {bits rest : List Bool}
    (h : readOnto exhausted high count bits = .ok (value, rest)) :
    bits.length = rest.length + count := by
  induction count generalizing high bits with
  | zero =>
      simp only [readOnto, Except.ok.injEq, Prod.mk.injEq] at h
      rw [h.2, Nat.add_zero]
  | succ count ih =>
      cases bits with
      | nil => simp [readOnto] at h
      | cons bit bits =>
          have := ih h
          simp only [List.length_cons]
          omega

/-- A read takes as many bits as were asked for. -/
theorem length_of_readBits {exhausted : Error} {count value : Nat} {bits rest : List Bool}
    (h : readBits exhausted count bits = .ok (value, rest)) :
    bits.length = rest.length + count :=
  length_of_readOnto h

end AmigaBinary.Decrunch
