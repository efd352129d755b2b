import AmigaBinary.Proofs.Decrunch.StoneCracker.Listed
import AmigaBinary.Proofs.Decrunch.StoneCracker.Tokens

/-!
# The machine that unpacks StoneCracker data

The machine keeps its output in memory, which it fills downwards. All its steps are checked. The
places of its first words are differences from a length that stands in the file itself, but the
check of the width does not let any length pass that is too short (`Machine.four_le_length`). So the
machine refines the decoder on lists (`Machine.unpack_refines`). What stood in the memory at first
does not count.
-/

namespace AmigaBinary.Decrunch.StoneCracker

open Checked

namespace Machine

/-! ## 1. The machine -/

/-- An error, if there is no room for `count` bytes. -/
def check (count : Nat) (m : Memory) : Checked Unit :=
  if m.buffer.position < count then
    throw (.outputOverrun .stoneCracker count m.buffer.position)
  else pure ()

/-- A literal byte. -/
def literal (value : Nat) (m : Memory) : Checked Memory := do
  check 1 m
  m.put (.literal (UInt8.ofNat value))

/-- So many literal bytes. -/
def literals (data : Bytes) : Nat → Memory → Reader → Checked (Memory × Reader)
  | 0, m, r => pure (m, r)
  | count + 1, m, r => do
    let (value, r) ← r.bits data 8
    let m ← literal value m
    literals data count m r

/-- So many bytes from a distance ahead, each of them checked. -/
def copyAll (distance : Nat) : Nat → Memory → Checked Memory
  | 0, m => pure m
  | count + 1, m => do
    let target ← m.below
    if m.buffer.cells.length ≤ target + distance then
      throw (.copyOutOfRange .stoneCracker (target + distance) m.buffer.cells.length)
    else
      let m ← m.put (.ahead distance)
      copyAll distance count m

/-- A copy of `count` bytes, if there is room for them. -/
def copy (offset count : Nat) (m : Memory) : Checked Memory := do
  check count m
  copyAll (offset + 1) count m

/-- The effect of a command. -/
def execute (data : Bytes) (command : Command) (m : Memory) (r : Reader) :
    Checked (Memory × Reader) :=
  match command with
  | .literal value => do
    let m ← literal value m
    pure (m, r)
  | .literals count => do
    check count m
    literals data count m r
  | .copy offset count => do
    let m ← copy offset count m
    pure (m, r)

/-- The tokens up to the end of the memory. There are fewer than `limit` of them. -/
def run (data : Bytes) (eff : Nat) : Nat → Memory → Reader → Checked Memory
  | 0, _, _ => fault
  | limit + 1, m, r => do
    if m.buffer.position = 0 then pure m
    else
      let (command, r) ← readCommand data eff r
      let (m, r) ← execute data command m r
      run data eff limit m r

/-- The reader at the start of a stream that ends at `tail`. The first word has `lead` bits. -/
def startReader (tail lead : Nat) (first : UInt16) : Checked Reader := do
  let position ← subtract tail 6
  if 0 < lead then
    let unused ← subtract 16 lead
    let register ← shiftRight first.toUInt32 unused
    pure ⟨position, register, lead⟩
  else pure ⟨position, 0, lead⟩

/-- The memory that packed data leaves, which ends at offset `tail` of a file. There are no more
    tokens than bytes to unpack. -/
def unpackTail (initial : Nat → UInt8) (packed : Bytes) (total tail : Nat) : Checked Memory := do
  let lead ← ofExcept (Bytes.readWord16 packed tail)
  let second ← subtract tail 2
  let first ← ofExcept (Bytes.readWord16 packed second)
  let third ← subtract tail 4
  let eff ← ofExcept (Bytes.readWord16 packed third)
  if eff.toNat < 10 ∨ 14 < eff.toNat then throw (.malformed (.offsetWidth eff.toNat))
  else
    let r ← startReader tail (lead &&& 0xF).toNat first
    run packed eff.toNat (total + 1) (.start initial total) r

/-- The memory that a packed file leaves, in which `initial` stood at first. -/
def unpack (initial : Nat → UInt8) (packed : Bytes) : Checked Memory :=
  if packed.length < headerLength then throw (.truncated 0 headerLength packed.length)
  else if packed.take 4 ≠ magic then throw (.wrongMagic "S404" (Text.hexBytes (packed.take 4)))
  else do
    let total ← ofExcept (Bytes.readWord32 packed 8)
    let length ← ofExcept (Bytes.readWord32 packed 12)
    let tail := headerLength + length.toNat
    let behind ← subtract packed.length headerLength
    if packed.length < tail + 2 then
      throw (.truncated headerLength (length.toNat + 2) behind)
    else unpackTail initial packed total.toNat tail

/-! ## 2. Commands -/

variable {data packed : Bytes} {odd eff size : Nat} {m : Memory} {out : Output} {r : Reader}
  {stream : List Bool}

/-- Memory that tracks an output, and a reader that holds what is still to be read. -/
def Runs (data : Bytes) (odd size : Nat) (p : Memory × Reader) (q : Output × List Bool) : Prop :=
  p.1.Tracks size q.1 ∧ p.2.Holds data odd q.2

/-- What needs room is done if there is room for it. -/
theorem check_refines (hm : m.Tracks size out) {α β : Type} {R : α → β → Prop} {count : Nat}
    {x : Checked α} {y : Except Error β} (h : count ≤ out.remaining → Refines R x y) :
    Refines R (check count m >>= fun _ => x)
      (match out.require .stoneCracker count with
        | .error e => .error e
        | .ok () => y) := by
  unfold check Output.require
  rw [hm.shows.position]
  by_cases hroom : count ≤ out.remaining
  · rw [if_neg (Nat.not_lt.2 hroom), if_pos hroom]
    exact h hroom
  · rw [if_pos (Nat.not_le.1 hroom), if_neg hroom]
    exact .error _

theorem literal_refines (hm : m.Tracks size out) (value : Nat) :
    Refines (Memory.Tracks size) (literal value m) (out.literal .stoneCracker value) := by
  have hliteral : out.literal .stoneCracker value = (match out.require .stoneCracker 1 with
      | .error e => .error e
      | .ok () => .ok (out.push (UInt8.ofNat value))) := by
    unfold Output.literal
    cases out.require .stoneCracker 1 <;> rfl
  rw [hliteral]
  exact check_refines hm fun hroom => hm.put_literal hroom _

theorem literals_refines (hm : m.Tracks size out) (hr : r.Holds data odd stream) (count : Nat) :
    Refines (Runs data odd size) (literals data count m r)
      (out.literals .stoneCracker (exhaustedAt odd) count stream) := by
  induction count generalizing m out r stream with
  | zero => exact .ok ⟨hm, hr⟩
  | succ count ih =>
      refine (hr.bits (by decide) (by decide)).bind fun p q hp => ?_
      dsimp only
      rw [hp.1]
      exact (literal_refines hm q.1).bind fun m' out' hm' => ih hm' hp.2

/-- Each byte of a copy is checked, and the first one decides. -/
theorem copyAll_refines (hm : m.Tracks size out) {offset count : Nat}
    (hroom : count ≤ out.remaining) : Refines (Memory.Tracks size) (copyAll (offset + 1) count m)
      (out.prepend .stoneCracker offset count) := by
  induction count generalizing m out with
  | zero => exact .ok hm
  | succ count ih =>
      have hposition := hm.shows.position
      have htotal := hm.shows.total
      have hsource : m.buffer.position - 1 + (offset + 1) = out.remaining + offset := by omega
      rw [copyAll, Output.prepend, hm.below (by omega), pure_bind, hsource, hm.full]
      cases hvalue : out.produced[offset]? with
      | none =>
          have hout := List.getElem?_eq_none_iff.1 hvalue
          rw [if_pos (by omega), htotal]
          exact .error _
      | some value =>
          have hin := (List.getElem?_eq_some_iff.1 hvalue).1
          rw [if_neg (by omega)]
          refine (hm.put_ahead (by omega) hvalue).and_ok.bind (y := .ok (out.push value))
            fun m' out' hput => ?_
          obtain ⟨hm', hout⟩ := hput
          cases hout
          exact ih hm' (by show count ≤ out.remaining - 1; omega)

/-- **A command has the effect that it has on a list.** -/
theorem execute_refines (hm : m.Tracks size out) (hr : r.Holds data odd stream)
    (command : Command) : Refines (Runs data odd size) (execute data command m r)
      (command.runListed (exhaustedAt odd) out stream) := by
  cases command with
  | literal value =>
      exact (literal_refines hm value).bind_map fun _ _ hm' => .ok ⟨hm', hr⟩
  | literals count => exact check_refines hm fun _ => literals_refines hm hr count
  | copy offset count =>
      have hcopy : Refines (Memory.Tracks size) (copy offset count m)
          (out.copyListed .stoneCracker offset count) :=
        check_refines hm fun hroom => copyAll_refines hm hroom
      exact hcopy.bind_map fun _ _ hm' => .ok ⟨hm', hr⟩

theorem step_refines (hlow : 10 ≤ eff) (hhigh : eff ≤ 14) (hm : m.Tracks size out)
    (hr : r.Holds data odd stream) : Refines (Runs data odd size)
      (do
        let (command, r) ← readCommand data eff r
        execute data command m r)
      (stepListed (exhaustedAt odd) eff out stream) := by
  refine (readCommand_refines hlow hhigh hr).bind fun p q hp => ?_
  dsimp only
  rw [hp.1]
  exact execute_refines hm hp.2 q.1

/-- **The machine decodes a stream as the decoder on lists does.** -/
theorem run_refines (hlow : 10 ≤ eff) (hhigh : eff ≤ 14) (hm : m.Tracks size out)
    (hr : r.Holds data odd stream) {limit : Nat} (hlimit : out.remaining < limit) :
    Refines (fun m out => m.Filled size out.produced) (run data eff limit m r)
      (expandListed (exhaustedAt odd) eff out stream) := by
  induction limit generalizing m out r stream with
  | zero => omega
  | succ limit ih =>
      rw [run, expandListed_eq_step, hm.shows.position]
      by_cases h0 : out.remaining = 0
      · rw [if_pos h0, if_pos h0]
        exact .ok (hm.filled h0)
      · rw [if_neg h0, if_neg h0]
        have hnext := (step_refines hlow hhigh hm hr).and_ok.bind fun p q hp => by
          obtain ⟨⟨hm', hr'⟩, hstep⟩ := hp
          -- each token leaves fewer bytes to produce
          have hless := remaining_of_stepListed hstep
          exact ih hm' hr' (by omega)
        rw [bind_assoc] at hnext
        exact hnext

/-! ## 3. Files -/

/-- The number of bits of the first word is the lowest digit of its word. -/
theorem toNat_and_digit (word : UInt16) : (word &&& 0xF).toNat = word.toNat % 0x10 := by
  rw [UInt16.toNat_and]
  exact Nat.and_two_pow_sub_one_eq_mod word.toNat 4

/-- A width from 10 to 14 is not read from the length in the header: the last three words of the
    packed data are behind it. -/
theorem four_le_length {length : UInt32} {eff : UInt16}
    (hlength : Bytes.readWord32 packed 12 = .ok length)
    (heff : Bytes.readWord16 packed (headerLength + length.toNat - 4) = .ok eff)
    (hlow : 10 ≤ eff.toNat) (hhigh : eff.toNat ≤ 14) : 4 ≤ length.toNat := by
  obtain ⟨rest, hrest⟩ := Bytes.readWord32_eq_ok.1 hlength
  have hoffset : headerLength + length.toNat - 4 = 12 + length.toNat := by
    have hheader : headerLength = 16 := rfl
    omega
  rw [hoffset, Bytes.readWord16, ← List.drop_drop, hrest] at heff
  by_contra hshort
  have hword : length = UInt32.ofNat length.toNat := UInt32.ofNat_toNat.symm
  rw [hword] at heff
  generalize length.toNat = n at heff hshort
  match n, Nat.not_le.1 hshort, rest, heff with
  | 0, _, _, heff =>
      obtain rfl := Except.ok.inj heff
      exact absurd hlow (by decide)
  | 1, _, _, heff =>
      obtain rfl := Except.ok.inj heff
      exact absurd hlow (by decide)
  | 2, _, _, heff =>
      obtain rfl := Except.ok.inj heff
      exact absurd hlow (by decide)
  | 3, _, [], heff => cases heff
  | 3, _, low :: _, heff =>
      obtain rfl := Except.ok.inj heff
      have hvalue := Bytes.toNat_word16 3 low
      have hthree : (3 : UInt8).toNat = 3 := rfl
      have hle : (Bytes.word16 3 low).toNat ≤ 14 := hhigh
      omega

theorem startReader_eq {tail : Nat} (htail : 6 ≤ tail) {lead : Nat} (hlead : lead < 16)
    (first : UInt16) : startReader tail lead first
      = pure ⟨tail - 6, first.toUInt32 >>> UInt32.ofNat (16 - lead), lead⟩ := by
  rw [startReader, subtract_of_le htail, pure_bind]
  by_cases h0 : 0 < lead
  · rw [if_pos h0, subtract_of_le (Nat.le_of_lt hlead), pure_bind, shiftRight_of_lt (by omega),
      pure_bind]
  · obtain rfl : lead = 0 := by omega
    have hnone : first.toUInt32 >>> UInt32.ofNat (16 - 0) = 0 := by
      apply UInt32.toNat_inj.1
      rw [toNat_shiftRight (by decide), UInt16.toNat_toUInt32]
      exact Nat.div_eq_of_lt first.toNat_lt
    rw [if_neg h0, hnone]

/-- A reader at the start of a stream holds all of it. -/
theorem holds_start {tail : Nat} (htail : headerLength + 4 ≤ tail)
    (hinside : tail + 2 ≤ packed.length) {lead : Nat} (hlead : lead < 16) (first : UInt16) :
    Reader.Holds packed (tail % 2)
      ⟨tail - 6, first.toUInt32 >>> UInt32.ofNat (16 - lead), lead⟩
      (streamBits lead first (wordsBackward ((packed.take (tail - 4)).drop headerLength))) := by
  have hheader : headerLength = 16 := rfl
  have hposition : tail - 6 + 2 = tail - 4 := by omega
  refine ⟨?_, ?_, ?_, hlead, (Accumulator.start ⟨lead, hlead⟩ first []).buffer_lt, ?_⟩
  · show headerLength ≤ tail - 6 + 2
    omega
  · show (tail - 6) % 2 = tail % 2
    omega
  · show tail - 6 + 2 ≤ packed.length
    omega
  · rw [← Accumulator.stream_start ⟨lead, hlead⟩ first, ← hposition]
    rfl

theorem unpackTail_refines (initial : Nat → UInt8) (total : Nat) {length : UInt32}
    (hlength : Bytes.readWord32 packed 12 = .ok length)
    (hinside : headerLength + length.toNat + 2 ≤ packed.length) :
    Refines (Memory.Filled total)
      (unpackTail initial packed total (headerLength + length.toNat))
      (unpackTailBy (fun exhausted eff bits => expandListed exhausted eff (.empty total) bits)
        packed (headerLength + length.toNat)) := by
  have hheader : headerLength = 16 := rfl
  generalize htail : headerLength + length.toNat = tail at hinside
  obtain ⟨lead, hlead⟩ := Bytes.exists_readWord16 hinside
  obtain ⟨first, hfirst⟩ := Bytes.exists_readWord16 (by omega : tail - 2 + 2 ≤ packed.length)
  obtain ⟨eff, heff⟩ := Bytes.exists_readWord16 (by omega : tail - 4 + 2 ≤ packed.length)
  unfold unpackTail unpackTailBy
  rw [hlead, hfirst, heff, ofExcept_ok_bind, subtract_of_le (by omega), pure_bind, hfirst,
    ofExcept_ok_bind, subtract_of_le (by omega), pure_bind, heff, ofExcept_ok_bind]
  show Refines _ _ (if eff.toNat < 10 ∨ 14 < eff.toNat then _ else _)
  by_cases hwidth : eff.toNat < 10 ∨ 14 < eff.toNat
  · rw [if_pos hwidth, if_pos hwidth]
    exact .error _
  have hfour := four_le_length hlength (htail ▸ heff) (by omega) (by omega)
  have hlead16 := Nat.mod_lt lead.toNat (by decide : 0 < 0x10)
  have hstart := holds_start (by omega : headerLength + 4 ≤ tail) hinside hlead16 first
  rw [if_neg hwidth, if_neg hwidth, toNat_and_digit, startReader_eq (by omega) hlead16, pure_bind]
  exact (run_refines (by omega) (by omega) (.start initial total) hstart
    (Nat.lt_succ_self total)).map fun _ _ hm => hm

/-- **The machine unpacks what the decoder on lists unpacks**, whatever its memory held at first.
    An output has the size in the header. -/
theorem unpack_refines (initial : Nat → UInt8) (packed : Bytes) :
    Refines (fun m out => ∃ size, Bytes.readWord32 packed 8 = .ok size ∧ m.Filled size.toNat out)
      (unpack initial packed) (unpackListed packed) := by
  have hheader : headerLength = 16 := rfl
  unfold unpack unpackListed unpackBy
  by_cases hshort : packed.length < headerLength
  · rw [if_pos hshort, if_pos hshort]
    exact .error _
  rw [if_neg hshort, if_neg hshort]
  by_cases hmagic : packed.take 4 ≠ magic
  · rw [if_pos hmagic, if_pos hmagic]
    exact .error _
  rw [if_neg hmagic, if_neg hmagic]
  obtain ⟨total, htotal⟩ := Bytes.exists_readWord32 (by omega : 8 + 4 ≤ packed.length)
  obtain ⟨length, hlength⟩ := Bytes.exists_readWord32 (by omega : 12 + 4 ≤ packed.length)
  rw [htotal, hlength, ofExcept_ok_bind, ofExcept_ok_bind, subtract_of_le (Nat.not_lt.1 hshort),
    pure_bind]
  show Refines _ _ (if packed.length < headerLength + length.toNat + 2 then _ else _)
  by_cases hinside : packed.length < headerLength + length.toNat + 2
  · rw [if_pos hinside, if_pos hinside]
    exact .error _
  · rw [if_neg hinside, if_neg hinside]
    exact (unpackTail_refines initial total.toNat hlength (Nat.not_lt.1 hinside)).mono
      fun m out hm => ⟨total, rfl, hm⟩

end Machine

end AmigaBinary.Decrunch.StoneCracker
