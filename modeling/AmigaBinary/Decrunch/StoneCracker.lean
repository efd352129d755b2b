import AmigaBinary.Decrunch.Output

/-!
# StoneCracker 4.04

A packed file has a header with the magic "S404", the length of the output and the length of the
packed data, which is read from its end in words of 16 bits. Its last three words are the number of
bits of the first word, that word, and the width of the longest distances. Every token starts with
nine bits, whose value selects one of six bands.
-/

namespace AmigaBinary.Decrunch.StoneCracker

/-! ## 1. Distances -/

/-- The largest length; lengths do not grow beyond it. -/
def maxLength : Nat := 0xFFFFFFFF

/-- A value whose highest bits are already known. -/
def readLow (exhausted : Error) (high count : Nat) (bits : List Bool) :
    Except Error (Nat × List Bool) :=
  readOnto exhausted high count bits

/-- A distance from 32 on, whose highest bits are already known. -/
def readMiddle (exhausted : Error) (high count : Nat) (bits : List Bool) :
    Except Error (Nat × List Bool) := do
  let (value, bits) ← readLow exhausted high count bits
  .ok (value + 32, bits)

/-- A distance from 544 on, whose highest bits are already known. -/
def readFar (exhausted : Error) (high count : Nat) (bits : List Bool) :
    Except Error (Nat × List Bool) := do
  let (value, bits) ← readLow exhausted high count bits
  .ok (value + 544, bits)

/-- The distance of a copy of two or three bytes, from the low six bits of the token. -/
def readShortDistance (exhausted : Error) (eff low : Nat) (bits : List Bool) :
    Except Error (Nat × List Bool) :=
  if 0x20 ≤ low then readFar exhausted (low - 0x20) (eff - 5) bits
  else if 0x10 ≤ low then readLow exhausted (low - 0x10) 1 bits
  else readMiddle exhausted low 5 bits

/-- The distance of a copy of four to seven bytes, from the low four bits of the token. -/
def readMediumDistance (exhausted : Error) (eff low : Nat) (bits : List Bool) :
    Except Error (Nat × List Bool) :=
  if 0x8 ≤ low then readFar exhausted (low - 0x8) (eff - 3) bits
  else if 0x4 ≤ low then readLow exhausted (low - 0x4) 3 bits
  else readMiddle exhausted low 7 bits

/-- The distance of a copy of 8 to 22 bytes, from the lowest bit of the token. -/
def readLongDistance (exhausted : Error) (eff low : Nat) (bits : List Bool) :
    Except Error (Nat × List Bool) :=
  if low = 1 then readFar exhausted 0 eff bits
  else do
    let (value, bits) ← readBits exhausted 6 bits
    if 0x20 ≤ value then .ok (value - 0x20, bits) else readMiddle exhausted value 4 bits

/-- The distance of a copy of 23 bytes or more. -/
def readLongestDistance (exhausted : Error) (eff : Nat) (bits : List Bool) :
    Except Error (Nat × List Bool) := do
  let (value, bits) ← readBits exhausted 7 bits
  if 0x40 ≤ value then readFar exhausted (value - 0x40) (eff - 6) bits
  else if 0x20 ≤ value then .ok (value - 0x20, bits)
  else readMiddle exhausted value 4 bits

/-! ## 2. Lengths -/

/-- The length of a copy of 23 bytes or more: groups of eight bits, of which `group` is the one
    that was just read, are added up to the first group that is not all ones. -/
def readLongest (exhausted : Error) (length group : Nat) (bits : List Bool) :
    Except Error (Nat × List Bool) :=
  let total := min maxLength (length + group)
  if group = 0xFF then
    match _h : readBits exhausted 8 bits with
    | .error e => .error e
    | .ok (next, rest) => readLongest exhausted total next rest
  else .ok (total, bits)
termination_by bits.length
decreasing_by
  have := length_of_readBits _h
  omega

theorem le_of_readLongest {exhausted : Error} {length group total : Nat} {bits rest : List Bool}
    (h : readLongest exhausted length group bits = .ok (total, rest)) :
    min maxLength length ≤ total := by
  fun_induction readLongest exhausted length group bits with
  | case1 => simp at h
  | case2 =>
      rename_i ih
      have := ih h
      omega
  | case3 =>
      simp only [Except.ok.injEq, Prod.mk.injEq] at h
      omega

/-! ## 3. Tokens -/

/-- What a token tells to do. -/
inductive Command where
  /-- The byte is in the token. -/
  | literal (value : Nat)
  /-- So many literal bytes follow. -/
  | literals (count : Nat)
  /-- Bytes are copied; a distance of 0 names the byte that was written last. -/
  | copy (distance count : Nat)
  deriving DecidableEq, Repr

/-- A copy of a known length, whose distance is at the front of a stream. -/
def copyOf (count : Nat) (distance : Except Error (Nat × List Bool)) :
    Except Error (Command × List Bool) :=
  distance.map fun (distance, bits) => (.copy distance count, bits)

/-- The command at the front of a stream. -/
def readCommand (exhausted : Error) (eff : Nat) (bits : List Bool) :
    Except Error (Command × List Bool) := do
  let (token, bits) ← readBits exhausted 9 bits
  if token < 0x100 then .ok (.literal token, bits)
  else if token < 0x120 then
    let (group, bits) ← readLow exhausted (token - 0x100) 3 bits
    let (count, bits) ← readLongest exhausted 23 group bits
    copyOf count (readLongestDistance exhausted eff bits)
  else if token < 0x13E then
    copyOf ((token - 0x120) / 2 + 8) (readLongDistance exhausted eff (token % 2) bits)
  else if token < 0x140 then
    let (count, bits) ← readLow exhausted (token % 2) 4 bits
    .ok (.literals (count + 14), bits)
  else if token < 0x180 then
    copyOf (token % 0x40 / 0x10 + 4) (readMediumDistance exhausted eff (token % 0x10) bits)
  else
    copyOf (token % 0x80 / 0x40 + 2) (readShortDistance exhausted eff (token % 0x40) bits)

/-- The number of bytes that a command writes. -/
def Command.count : Command → Nat
  | .literal _ => 1
  | .literals count => count
  | .copy _ count => count

/-- The effect of a command on an output of `total` bytes. -/
def Command.run (exhausted : Error) (total : Nat) (command : Command) (out : Output)
    (bits : List Bool) : Except Error (Output × List Bool) :=
  match command with
  | .literal value => (out.literal .stoneCracker value).map (·, bits)
  | .literals count => out.literalRun .stoneCracker exhausted count bits
  | .copy distance count => (out.copy .stoneCracker total (distance + 1) count).map (·, bits)

/-- The effect of the token at the front of a stream. -/
def step (exhausted : Error) (eff total : Nat) (out : Output) (bits : List Bool) :
    Except Error (Output × List Bool) := do
  let (command, bits) ← readCommand exhausted eff bits
  command.run exhausted total out bits

/-! ## 4. Every token writes something -/

theorem count_of_copyOf {count : Nat} {distance : Except Error (Nat × List Bool)}
    {command : Command} {rest : List Bool} (h : copyOf count distance = .ok (command, rest)) :
    command.count = count := by
  cases distance with
  | error e => simp [copyOf, Except.map] at h
  | ok d =>
      simp only [copyOf, Except.map, Except.ok.injEq, Prod.mk.injEq] at h
      obtain ⟨rfl, -⟩ := h
      rfl

theorem count_pos_of_readCommand {exhausted : Error} {eff : Nat} {bits rest : List Bool}
    {command : Command} (h : readCommand exhausted eff bits = .ok (command, rest)) :
    0 < command.count := by
  simp only [readCommand, bind, Except.bind] at h
  repeat' split at h
  all_goals first
    | (simp at h; done)
    | (simp only [Except.ok.injEq, Prod.mk.injEq] at h; obtain ⟨rfl, -⟩ := h; simp [Command.count])
    | (have h1 := count_of_copyOf h; omega)
    | (rename_i hl
       have h1 := le_of_readLongest hl
       have h2 := count_of_copyOf h
       simp only [maxLength] at h1
       omega)

theorem remaining_of_run {exhausted : Error} {total : Nat} {command : Command}
    {out next : Output} {bits rest : List Bool}
    (h : command.run exhausted total out bits = .ok (next, rest)) :
    next.remaining + command.count = out.remaining := by
  cases command with
  | literal value =>
      simp only [Command.run] at h
      cases hc : out.literal .stoneCracker value with
      | error e => simp [hc, Except.map] at h
      | ok o =>
          simp only [hc, Except.map, Except.ok.injEq, Prod.mk.injEq] at h
          obtain ⟨rfl, -⟩ := h
          exact Output.remaining_of_literal hc
  | literals count => exact Output.remaining_of_literalRun h
  | copy distance count =>
      simp only [Command.run] at h
      cases hc : out.copy .stoneCracker total (distance + 1) count with
      | error e => simp [hc, Except.map] at h
      | ok o =>
          simp only [hc, Except.map, Except.ok.injEq, Prod.mk.injEq] at h
          obtain ⟨rfl, -⟩ := h
          exact Output.remaining_of_copy hc

theorem remaining_of_step {exhausted : Error} {eff total : Nat} {out next : Output}
    {bits rest : List Bool} (h : step exhausted eff total out bits = .ok (next, rest)) :
    next.remaining < out.remaining := by
  simp only [step, bind, Except.bind] at h
  split at h
  · simp at h
  · rename_i c hc
    have h1 := count_pos_of_readCommand hc
    have h2 := remaining_of_run h
    omega

/-- The tokens of a stream up to the end of the output. -/
def expand (exhausted : Error) (eff total : Nat) (out : Output) (bits : List Bool) :
    Except Error Output :=
  if out.remaining = 0 then .ok out
  else
    match _h : step exhausted eff total out bits with
    | .error e => .error e
    | .ok (next, rest) => expand exhausted eff total next rest
termination_by out.remaining
decreasing_by exact remaining_of_step _h

/-! ## 5. Files -/

/-- The magic in front of a packed file. -/
def magic : Bytes :=
  Bytes.ascii "S404"

/-- The length of the header. -/
def headerLength : Nat := 16

/-- The bits of a stream: the highest bits of the first word, then all bits of each word. -/
def streamBits (lead : Nat) (first : UInt16) (words : List UInt16) : List Bool :=
  (highestFirst 16 first.toNat).take lead ++ words.flatMap fun word => highestFirst 16 word.toNat

/-- The output of packed data that ends at offset `tail` of a file. The words of the stream lie
    between the header and the last three words. -/
def unpackTail (packed : Bytes) (total tail : Nat) : Except Error Bytes := do
  let lead ← Bytes.readWord16 packed tail
  let first ← Bytes.readWord16 packed (tail - 2)
  let eff ← Bytes.readWord16 packed (tail - 4)
  if eff.toNat < 10 ∨ 14 < eff.toNat then .error (.malformed (.offsetWidth eff.toNat))
  else
    let words := wordsBackward ((packed.take (tail - 4)).drop headerLength)
    let exhausted := Error.inputExhausted .stoneCracker (headerLength - 2 + tail % 2)
    let bits := streamBits (lead.toNat % 0x10) first words
    let out ← expand exhausted eff.toNat total (.empty total) bits
    .ok out.produced

/-- The output of a packed file. -/
def unpack (packed : Bytes) : Except Error Bytes :=
  if packed.length < headerLength then .error (.truncated 0 headerLength packed.length)
  else if packed.take 4 ≠ magic then .error (.wrongMagic "S404" (Text.hexBytes (packed.take 4)))
  else do
    let total ← Bytes.readWord32 packed 8
    let length ← Bytes.readWord32 packed 12
    let tail := headerLength + length.toNat
    if packed.length < tail + 2 then
      .error (.truncated headerLength (length.toNat + 2) (packed.length - headerLength))
    else unpackTail packed total.toNat tail

end AmigaBinary.Decrunch.StoneCracker
