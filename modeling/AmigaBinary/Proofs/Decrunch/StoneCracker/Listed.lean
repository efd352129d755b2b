import AmigaBinary.Proofs.Decrunch.Checked
import AmigaBinary.Proofs.Decrunch.StoneCracker.Operation

/-!
# Unpacking to a list

A decoder of StoneCracker data needs no buffer: it prepends to the list of the bytes produced so
far, and rejects a copy whose offset is not below their number. It answers as `unpack` does, errors
included (`unpackListed_eq`).
-/

namespace AmigaBinary.Decrunch.StoneCracker

/-! ## 1. Tokens -/

/-- The effect of a command on an output. Copies are made from the list of the produced bytes. -/
def Command.runListed (exhausted : Error) (command : Command) (out : Output) (bits : List Bool) :
    Except Error (Output × List Bool) :=
  match command with
  | .literal value => (out.literal .stoneCracker value).map (·, bits)
  | .literals count => out.literalRun .stoneCracker exhausted count bits
  | .copy offset count => (out.copyListed .stoneCracker offset count).map (·, bits)

/-- The effect of the token at the front of a stream. -/
def stepListed (exhausted : Error) (eff : Nat) (out : Output) (bits : List Bool) :
    Except Error (Output × List Bool) := do
  let (command, bits) ← readCommand exhausted eff bits
  command.runListed exhausted out bits

variable {exhausted : Error} {eff : Nat} {out next : Output} {bits rest : List Bool}

theorem Command.runListed_eq {command : Command} (hcount : 0 < command.count) :
    command.runListed exhausted out bits
      = command.run exhausted (out.remaining + out.produced.length) out bits := by
  cases command with
  | literal value => rfl
  | literals count => rfl
  | copy offset count => exact congrArg (Except.map (·, bits)) (Output.copyListed_eq hcount)

theorem stepListed_eq (exhausted : Error) (eff : Nat) (out : Output) (bits : List Bool) :
    stepListed exhausted eff out bits
      = step exhausted eff (out.remaining + out.produced.length) out bits := by
  unfold stepListed step
  cases hread : readCommand exhausted eff bits with
  | error e => rfl
  | ok result => exact Command.runListed_eq (count_pos_of_readCommand hread)

theorem remaining_of_stepListed (h : stepListed exhausted eff out bits = .ok (next, rest)) :
    next.remaining < out.remaining := by
  rw [stepListed_eq] at h
  exact remaining_of_step h

/-- A token moves the bytes that it writes from the missing ones to the produced ones. -/
theorem total_of_stepListed (h : stepListed exhausted eff out bits = .ok (next, rest)) :
    next.remaining + next.produced.length = out.remaining + out.produced.length := by
  obtain ⟨⟨command, behind⟩, hread, h⟩ := bind_eq_ok.1 h
  have hcount := count_pos_of_readCommand hread
  cases command with
  | literal value =>
      obtain ⟨pushed, hpush, hnext⟩ := map_eq_ok.1 h
      obtain ⟨rfl, -⟩ := Prod.mk.inj hnext
      obtain ⟨hroom, rfl⟩ := Output.literal_eq_ok.1 hpush
      show out.remaining - 1 + (out.produced.length + 1) = _
      omega
  | literals count =>
      obtain ⟨bytes, hlength, hroom, -, rfl⟩ := Output.literalRun_eq_ok.1 h
      show out.remaining - count + (bytes.reverse ++ out.produced).length = _
      rw [List.length_append, List.length_reverse]
      omega
  | copy offset count =>
      obtain ⟨copied, hcopy, hnext⟩ := map_eq_ok.1 h
      obtain ⟨rfl, -⟩ := Prod.mk.inj hnext
      exact (Output.total_of_copyListed hcount hcopy).2

/-! ## 2. Streams -/

/-- The tokens of a stream up to the end of the output. -/
def expandListed (exhausted : Error) (eff : Nat) (out : Output) (bits : List Bool) :
    Except Error Output :=
  if out.remaining = 0 then .ok out
  else
    match _h : stepListed exhausted eff out bits with
    | .error e => .error e
    | .ok (next, rest) => expandListed exhausted eff next rest
termination_by out.remaining
decreasing_by exact remaining_of_stepListed _h

/-- One token of a stream, and the others. -/
theorem expand_eq (exhausted : Error) (eff total : Nat) (out : Output) (bits : List Bool) :
    expand exhausted eff total out bits = if out.remaining = 0 then .ok out else (do
      let (next, rest) ← step exhausted eff total out bits
      expand exhausted eff total next rest) := by
  rw [expand]
  cases step exhausted eff total out bits <;> rfl

theorem expandListed_eq_step (exhausted : Error) (eff : Nat) (out : Output) (bits : List Bool) :
    expandListed exhausted eff out bits = if out.remaining = 0 then .ok out else (do
      let (next, rest) ← stepListed exhausted eff out bits
      expandListed exhausted eff next rest) := by
  rw [expandListed]
  cases stepListed exhausted eff out bits <;> rfl

/-- **The decoder on lists decodes a stream as the other one does.** -/
theorem expandListed_eq (exhausted : Error) (eff : Nat) (out : Output) (bits : List Bool) :
    expandListed exhausted eff out bits
      = expand exhausted eff (out.remaining + out.produced.length) out bits := by
  fun_induction expandListed exhausted eff out bits with
  | case1 out bits h0 => rw [expand_full h0]
  | case2 out bits h0 e hstep =>
      rw [stepListed_eq] at hstep
      rw [expand_eq, if_neg h0, hstep]
      rfl
  | case3 out bits h0 next rest hstep ih =>
      rw [ih, total_of_stepListed hstep]
      rw [stepListed_eq] at hstep
      rw [expand_step h0 hstep]

/-! ## 3. Files -/

/-- Packed data that ends at offset `tail` of a file, with a decoder of its stream. -/
def unpackTailBy (decode : Error → Nat → List Bool → Except Error Output) (packed : Bytes)
    (tail : Nat) : Except Error Bytes := do
  let lead ← Bytes.readWord16 packed tail
  let first ← Bytes.readWord16 packed (tail - 2)
  let eff ← Bytes.readWord16 packed (tail - 4)
  if eff.toNat < 10 ∨ 14 < eff.toNat then .error (.malformed (.offsetWidth eff.toNat))
  else
    let words := wordsBackward ((packed.take (tail - 4)).drop headerLength)
    let exhausted := Error.inputExhausted .stoneCracker (headerLength - 2 + tail % 2)
    let out ← decode exhausted eff.toNat (streamBits (lead.toNat % 0x10) first words)
    .ok out.produced

/-- A packed file with a decoder of its stream. -/
def unpackBy (decode : Nat → Error → Nat → List Bool → Except Error Output) (packed : Bytes) :
    Except Error Bytes :=
  if packed.length < headerLength then .error (.truncated 0 headerLength packed.length)
  else if packed.take 4 ≠ magic then .error (.wrongMagic "S404" (Text.hexBytes (packed.take 4)))
  else do
    let total ← Bytes.readWord32 packed 8
    let length ← Bytes.readWord32 packed 12
    let tail := headerLength + length.toNat
    if packed.length < tail + 2 then
      .error (.truncated headerLength (length.toNat + 2) (packed.length - headerLength))
    else unpackTailBy (decode total.toNat) packed tail

theorem unpack_eq : unpack
    = unpackBy fun total exhausted eff bits => expand exhausted eff total (.empty total) bits := rfl

/-- The output of a packed file, by a decoder on lists: it prepends to its output, and it rejects a
    copy whose offset is not below the number of the bytes produced so far. -/
def unpackListed : Bytes → Except Error Bytes :=
  unpackBy fun total exhausted eff bits => expandListed exhausted eff (.empty total) bits

/-- **The decoder on lists unpacks a file as the other one does.** -/
theorem unpackListed_eq : unpackListed = unpack := by
  rw [unpack_eq, unpackListed]
  refine congrArg unpackBy ?_
  refine funext fun total => funext fun exhausted => funext fun eff => funext fun bits => ?_
  exact expandListed_eq exhausted eff (.empty total) bits

end AmigaBinary.Decrunch.StoneCracker
