import AmigaBinary.Cursor
import AmigaBinary.Decrunch.Output

/-!
# Squashed hunks

The compiler stores hunks in the "xVdg" format: the magic, the size of the buffer, the length of
the packed region and the region itself, which is read from its end in words of 32 bits. The last
word is the size of the output, then come a checksum seed and a register with the first bits,
below a sentinel bit, then the bit stream. Afterwards the exclusive or of the seed, the register
and the words of the stream has to be zero, and the stream has to be used up but for zero bits.
-/

namespace AmigaBinary.Decrunch.Squash

/-! ## 1. Tokens -/

/-- What a token tells to do. -/
inductive Command where
  /-- So many literal bytes follow. -/
  | literals (count : Nat)
  /-- Bytes are copied from a distance ahead. -/
  | copy (distance count : Nat)
  deriving DecidableEq, Repr

/-- The command at the front of a stream. Only the long copy gives its count, in front of the
    distance. -/
def readCommand (exhausted : Error) (bits : List Bool) : Except Error (Command × List Bool) := do
  let (isLong, bits) ← readBits exhausted 1 bits
  if isLong = 0 then
    let (isCopy, bits) ← readBits exhausted 1 bits
    if isCopy = 0 then
      let (count, bits) ← readBits exhausted 3 bits
      .ok (.literals (count + 1), bits)
    else
      let (distance, bits) ← readBits exhausted 8 bits
      .ok (.copy distance 2, bits)
  else
    let (kind, bits) ← readBits exhausted 2 bits
    match kind with
    | 0 => do
        let (distance, bits) ← readBits exhausted 9 bits
        .ok (.copy distance 3, bits)
    | 1 => do
        let (distance, bits) ← readBits exhausted 10 bits
        .ok (.copy distance 4, bits)
    | 2 => do
        let (count, bits) ← readBits exhausted 8 bits
        let (distance, bits) ← readBits exhausted 12 bits
        .ok (.copy distance (count + 1), bits)
    | _ => do
        let (count, bits) ← readBits exhausted 8 bits
        .ok (.literals (count + 9), bits)

/-- The number of bytes that a command writes. -/
def Command.count : Command → Nat
  | .literals count => count
  | .copy _ count => count

/-- The effect of a command on the output. -/
def Command.run (exhausted : Error) (capacity : Nat) (command : Command) (out : Output)
    (bits : List Bool) : Except Error (Output × List Bool) :=
  match command with
  | .literals count => out.literals .squash exhausted count bits
  | .copy distance count => (out.copy .squash capacity distance count).map (·, bits)

/-- The effect of the token at the front of a stream. -/
def step (exhausted : Error) (capacity : Nat) (out : Output) (bits : List Bool) :
    Except Error (Output × List Bool) := do
  let (command, bits) ← readCommand exhausted bits
  command.run exhausted capacity out bits

/-! ## 2. Every token writes something -/

theorem count_pos_of_readCommand {exhausted : Error} {bits rest : List Bool} {command : Command}
    (h : readCommand exhausted bits = .ok (command, rest)) : 0 < command.count := by
  simp only [readCommand, bind, Except.bind] at h
  repeat' split at h
  all_goals first
    | (simp at h; done)
    | (simp only [Except.ok.injEq, Prod.mk.injEq] at h; obtain ⟨rfl, -⟩ := h; simp [Command.count])

theorem remaining_of_run {exhausted : Error} {capacity : Nat} {command : Command}
    {out next : Output} {bits rest : List Bool}
    (h : command.run exhausted capacity out bits = .ok (next, rest)) :
    next.remaining + command.count = out.remaining := by
  cases command with
  | literals count => exact Output.remaining_of_literals h
  | copy distance count =>
      simp only [Command.run] at h
      cases hc : out.copy .squash capacity distance count with
      | error e => simp [hc, Except.map] at h
      | ok o =>
          simp only [hc, Except.map, Except.ok.injEq, Prod.mk.injEq] at h
          obtain ⟨rfl, -⟩ := h
          exact Output.remaining_of_copy hc

theorem remaining_of_step {exhausted : Error} {capacity : Nat} {out next : Output}
    {bits rest : List Bool} (h : step exhausted capacity out bits = .ok (next, rest)) :
    next.remaining < out.remaining := by
  simp only [step, bind, Except.bind] at h
  split at h
  · simp at h
  · rename_i c hc
    have h1 := count_pos_of_readCommand hc
    have h2 := remaining_of_run h
    omega

/-- The tokens of a stream up to the end of the output. -/
def expand (exhausted : Error) (capacity : Nat) (out : Output) (bits : List Bool) :
    Except Error (Output × List Bool) :=
  if out.remaining = 0 then .ok (out, bits)
  else
    match _h : step exhausted capacity out bits with
    | .error e => .error e
    | .ok (next, rest) => expand exhausted capacity next rest
termination_by out.remaining
decreasing_by exact remaining_of_step _h

/-! ## 3. The bit register -/

/-- The bits of a register below its highest set bit, in reading order. -/
def registerBits (register : UInt32) : List Bool :=
  lowestFirst (Nat.log2 register.toNat) register.toNat

/-- The register that holds the given bits below a sentinel bit. -/
def registerOf : List Bool → Nat
  | [] => 1
  | bit :: bits => bit.toNat + 2 * registerOf bits

/-- The bits of a stream: those of the initial register, then all bits of each word. -/
def streamBits (register : UInt32) (words : List UInt32) : List Bool :=
  registerBits register ++ words.flatMap fun word => lowestFirst 32 word.toNat

/-- The exclusive or of a list of words. -/
def xorAll (words : List UInt32) : UInt32 :=
  words.foldl (· ^^^ ·) 0

/-! ## 4. Files -/

/-- The magic in front of a squashed hunk. -/
def magic : Bytes :=
  Bytes.ascii "xVdg"

/-- Whether the contents of a hunk are squashed. -/
def isSquashed (data : Bytes) : Bool :=
  12 < data.length && data.take 4 == magic

/-- The packed region of a squashed hunk, behind the header, and the size of the buffer. -/
def region (data : Bytes) : Except Error (Nat × Bytes) :=
  if data.length < 12 then .error (.truncated 0 12 data.length)
  else if data.take 4 ≠ magic then .error (.wrongMagic "xVdg" (Text.hexBytes (data.take 4)))
  else do
    let capacity ← Bytes.readWord32 data 4
    let length ← Bytes.readWord32 data 8
    let region ← Bytes.readSlice data 12 length.toNat
    .ok (capacity.toNat, region)

/-- What has to hold once the output is complete: the words that were read fold to zero, and
    neither a word nor a set bit is left. Words are read whole, so of the bits that are left only
    the last whole words are unread. -/
def checkEnd (leftover : Nat) (seed register : UInt32) (words : List UInt32)
    (rest : List Bool) : Except Error Unit :=
  let unread := rest.length / 32
  let residual := seed ^^^ register ^^^ xorAll (words.take (words.length - unread))
  let last :=
    if rest.length = (streamBits register words).length then register
    else UInt32.ofNat (registerOf (rest.take (rest.length % 32)))
  let position := 4 * unread + leftover
  if residual ≠ 0 then .error (.checksum residual)
  else if position ≠ 0 ∨ last = 0 ∨ rest.any id then .error (.unconsumedInput position last)
  else .ok ()

/-- The output of a packed region. -/
def expandRegion (capacity : Nat) (region : Bytes) : Except Error Bytes :=
  match longsBackward region with
  | size :: seed :: register :: words =>
    if capacity < size.toNat then .error (.malformed (.largerThanBuffer size.toNat capacity))
    else do
      let leftover := region.length % 4
      let exhausted := Error.inputExhausted .squash leftover
      let (out, rest) ← expand exhausted capacity (.empty size.toNat) (streamBits register words)
      checkEnd leftover seed register words rest
      .ok out.produced
  | _ => .error (.malformed (.noTrailer region.length))

/-- The contents of a squashed hunk. -/
def unsquash (data : Bytes) : Except Error Bytes := do
  let (capacity, region) ← region data
  expandRegion capacity region

end AmigaBinary.Decrunch.Squash
