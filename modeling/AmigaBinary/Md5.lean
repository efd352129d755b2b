import AmigaBinary.Bytes

/-!
# MD5

The digest by which files, loaders and unpacking code are recognised. The message is padded to
blocks of 64 bytes with its length in bits at the end, and the four words of the state go through
64 steps for each block. Words are little-endian.
-/

namespace AmigaBinary.Md5

/-! ## 1. Tables -/

/-- The words that are added in the 64 steps. -/
def sines : List UInt32 :=
  [0xd76aa478, 0xe8c7b756, 0x242070db, 0xc1bdceee, 0xf57c0faf, 0x4787c62a, 0xa8304613, 0xfd469501,
   0x698098d8, 0x8b44f7af, 0xffff5bb1, 0x895cd7be, 0x6b901122, 0xfd987193, 0xa679438e, 0x49b40821,
   0xf61e2562, 0xc040b340, 0x265e5a51, 0xe9b6c7aa, 0xd62f105d, 0x02441453, 0xd8a1e681, 0xe7d3fbc8,
   0x21e1cde6, 0xc33707d6, 0xf4d50d87, 0x455a14ed, 0xa9e3e905, 0xfcefa3f8, 0x676f02d9, 0x8d2a4c8a,
   0xfffa3942, 0x8771f681, 0x6d9d6122, 0xfde5380c, 0xa4beea44, 0x4bdecfa9, 0xf6bb4b60, 0xbebfbc70,
   0x289b7ec6, 0xeaa127fa, 0xd4ef3085, 0x04881d05, 0xd9d4d039, 0xe6db99e5, 0x1fa27cf8, 0xc4ac5665,
   0xf4292244, 0x432aff97, 0xab9423a7, 0xfc93a039, 0x655b59c3, 0x8f0ccc92, 0xffeff47d, 0x85845dd1,
   0x6fa87e4f, 0xfe2ce6e0, 0xa3014314, 0x4e0811a1, 0xf7537e82, 0xbd3af235, 0x2ad7d2bb, 0xeb86d391]

/-- The four rotations that the steps of a round take in turn. -/
def rotations (round : Nat) : List UInt32 :=
  match round with
  | 0 => [7, 12, 17, 22]
  | 1 => [5, 9, 14, 20]
  | 2 => [4, 11, 16, 23]
  | _ => [6, 10, 15, 21]

/-! ## 2. Steps -/

/-- The four words of the state. -/
structure State where
  a : UInt32
  b : UInt32
  c : UInt32
  d : UInt32
  deriving DecidableEq, Repr

/-- The state before the first block. -/
def State.initial : State :=
  ⟨0x67452301, 0xefcdab89, 0x98badcfe, 0x10325476⟩

/-- A word rotated to the left by 1 to 31 bits. -/
def rotateLeft (word amount : UInt32) : UInt32 :=
  word <<< amount ||| word >>> (32 - amount)

/-- The mixing function of a round. -/
def mix (round : Nat) (s : State) : UInt32 :=
  match round with
  | 0 => (s.b &&& s.c) ||| (~~~s.b &&& s.d)
  | 1 => (s.d &&& s.b) ||| (~~~s.d &&& s.c)
  | 2 => s.b ^^^ s.c ^^^ s.d
  | _ => s.c ^^^ (s.b ||| ~~~s.d)

/-- The number of the message word that a step adds. -/
def wordIndex (step : Nat) : Nat :=
  match step / 16 with
  | 0 => step
  | 1 => (5 * step + 1) % 16
  | 2 => (3 * step + 5) % 16
  | _ => 7 * step % 16

/-- One step on a block. -/
def step (words : Array UInt32) (s : State) (number : Nat) (sine : UInt32) : State :=
  let round := number / 16
  let sum := s.a + mix round s + sine + words.getD (wordIndex number) 0
  ⟨s.d, s.b + rotateLeft sum ((rotations round).getD (number % 4) 0), s.b, s.c⟩

/-- All steps on a block. -/
def steps (words : Array UInt32) : List UInt32 → Nat → State → State
  | [], _, s => s
  | sine :: sines, number, s => steps words sines (number + 1) (step words s number sine)

/-! ## 3. Blocks -/

/-- The little-endian words of a byte string. -/
def littleWords : Bytes → List UInt32
  | a :: b :: c :: d :: rest => Bytes.word32 d c b a :: littleWords rest
  | _ => []

/-- The little-endian bytes of a word. -/
def littleBytes (word : UInt32) : Bytes :=
  (Bytes.ofWord32 word).reverse

/-- The state after the blocks of 16 words each. -/
def absorb : List UInt32 → State → State
  | [], s => s
  | word :: words, s =>
    let block := (word :: words).take 16
    let t := steps block.toArray sines 0 s
    absorb (words.drop 15) ⟨s.a + t.a, s.b + t.b, s.c + t.c, s.d + t.d⟩
termination_by words => words.length
decreasing_by
  simp only [List.length_drop, List.length_cons]
  omega

/-- The message with a one bit, zeros and its length in bits behind it, in whole blocks. -/
def pad (message : Bytes) : Bytes :=
  let bits := 8 * message.length
  message ++ 0x80 :: List.replicate ((119 - message.length % 64) % 64) 0
    ++ littleBytes (UInt32.ofNat bits) ++ littleBytes (UInt32.ofNat (bits / 0x100000000))

/-- The digest of a message. -/
def digest (message : Bytes) : Bytes :=
  let s := absorb (littleWords (pad message)) .initial
  [s.a, s.b, s.c, s.d].flatMap littleBytes

/-- The digest of a message in hexadecimal. -/
def hexDigest (message : Bytes) : String :=
  Text.hexBytes (digest message)

end AmigaBinary.Md5
