import AmigaBinary.Proofs.Decrunch.Checked
import AmigaBinary.Proofs.Decrunch.StoneCracker.Accumulator

/-!
# Reading bits from a packed file

The bits of StoneCracker data are read through an index into the file that moves to its header, and
a register to which words are added below. What a reader still has to read is a stream
(`Reader.Holds`), and its reads refine those from the stream (`Reader.Holds.bits`): no index leaves
the file, and no shift is as wide as the register.
-/

namespace AmigaBinary.Decrunch.StoneCracker

open Checked

/-! ## 1. The reader -/

/-- Where the machine is in a packed file: the lowest `count` bits of a register are still to be
    read, then the word at `position` and those in front of it. -/
structure Reader where
  position : Nat
  register : UInt32
  count : Nat

namespace Reader

/-- The word at the position is added below the register. -/
def refill (data : Bytes) (r : Reader) : Checked Reader :=
  if r.position < headerLength then throw (.inputExhausted .stoneCracker r.position)
  else do
    let word ← ofExcept (Bytes.readWord16 data r.position)
    let position ← subtract r.position 2
    pure ⟨position, StoneCracker.load r.register word, r.count + 16⟩

/-- Words are added until there are `count` bits. There are fewer than `limit` words. -/
def fill (data : Bytes) (count : Nat) : Nat → Reader → Checked Reader
  | 0, _ => fault
  | limit + 1, r =>
    if r.count < count then do
      let r ← r.refill data
      fill data count limit r
    else pure r

/-- The highest `count` bits of the register. -/
def cut (count : Nat) (r : Reader) : Checked (Nat × Reader) := do
  let left ← subtract r.count count
  let high ← shiftRight r.register left
  let ones ← lowMask count
  let lower ← lowMask left
  pure ((high &&& ones).toNat, ⟨r.position, r.register &&& lower, left⟩)

/-- The next `count` bits, of which there are 1 to 16. One word is enough for them. -/
def bits (data : Bytes) (count : Nat) (r : Reader) : Checked (Nat × Reader) :=
  if 1 ≤ count ∧ count ≤ 16 then do
    let r ← fill data count 2 r
    r.cut count
  else fault

/-- The next `count` bits, below those of a value. -/
def bitsBelow (data : Bytes) (high count : Nat) (r : Reader) : Checked (Nat × Reader) := do
  let (value, r) ← r.bits data count
  pure (high <<< count ||| value, r)

/-- A number that the bits still to be read do not exceed. -/
def bitsLeft (r : Reader) : Nat :=
  8 * r.position + r.count

/-- The words that a reader has not added yet. -/
def unread (data : Bytes) (r : Reader) : List UInt16 :=
  wordsBackward ((data.take (r.position + 2)).drop headerLength)

/-- What a reader still has to read. All its positions have the parity `odd`. -/
structure Holds (data : Bytes) (odd : Nat) (r : Reader) (bits : List Bool) : Prop where
  behind : headerLength ≤ r.position + 2
  parity : r.position % 2 = odd
  inside : r.position + 2 ≤ data.length
  count_lt : r.count < 16
  register_lt : r.register.toNat < 2 ^ r.count
  stream : highestFirst r.count r.register.toNat ++ wordBits (r.unread data) = bits

/-- A value that was read, and what is still to be read. -/
def Reads (data : Bytes) (odd : Nat) (p : Nat × Reader) (q : Nat × List Bool) : Prop :=
  p.1 = q.1 ∧ p.2.Holds data odd q.2

end Reader

/-- The error at the end of a file. -/
def exhaustedAt (odd : Nat) : Error :=
  .inputExhausted .stoneCracker (headerLength - 2 + odd)

/-- The word at a position behind the header is read before those in front of it. -/
theorem wordsBackward_take {data : Bytes} {position : Nat} (hh : headerLength ≤ position)
    (hle : position + 2 ≤ data.length) : ∃ word, Bytes.readWord16 data position = .ok word ∧
      wordsBackward ((data.take (position + 2)).drop headerLength)
        = word :: wordsBackward ((data.take position).drop headerLength) := by
  obtain ⟨word, hword⟩ := Bytes.exists_readWord16 hle
  obtain ⟨rest, hrest⟩ := Bytes.readWord16_eq_ok.1 hword
  have htake : data.take (position + 2) = data.take position ++ Bytes.ofWord16 word := by
    rw [List.take_add, hrest]
    rfl
  have hlength : headerLength ≤ (data.take position).length := by
    rw [List.length_take]
    omega
  refine ⟨word, hword, ?_⟩
  rw [htake, List.drop_append_of_le_length hlength, wordsBackward_append]

theorem wordsBackward_of_short {data : Bytes} (h : data.length < 2) : wordsBackward data = [] := by
  match data, h with
  | [], _ => rfl
  | [_], _ => rfl

theorem length_wordsOfReversed : ∀ reversed : Bytes,
    2 * (wordsOfReversed reversed).length ≤ reversed.length
  | [] => Nat.le_refl 0
  | [_] => Nat.zero_le 1
  | _ :: _ :: rest => by
      have := length_wordsOfReversed rest
      rw [wordsOfReversed, List.length_cons, List.length_cons, List.length_cons]
      omega

theorem length_wordBits (words : List UInt16) : (wordBits words).length = 16 * words.length := by
  induction words with
  | nil => rfl
  | cons word words ih =>
      show (highestFirst 16 word.toNat ++ wordBits words).length = _
      rw [List.length_append, length_highestFirst, ih, List.length_cons]
      omega

theorem readOnto_eq_map_onto_zero (exhausted : Error) (high count : Nat) (bits : List Bool) :
    readOnto exhausted high count bits
      = (readOnto exhausted 0 count bits).map fun (value, rest) =>
          (high * 2 ^ count + value, rest) := by
  induction count generalizing high bits with
  | zero => simp [readOnto, Except.map]
  | succ count ih =>
      cases bits with
      | nil => rfl
      | cons bit bits =>
          have hvalue (low : Nat) : (2 * high + bit.toNat) * 2 ^ count + low
              = high * 2 ^ (count + 1) + ((2 * 0 + bit.toNat) * 2 ^ count + low) := by
            ring
          rw [readOnto, readOnto, ih, ih (2 * 0 + bit.toNat)]
          cases readOnto exhausted 0 count bits with
          | error e => rfl
          | ok result => exact congrArg (fun v => Except.ok (v, result.2)) (hvalue result.1)

namespace Reader

variable {data : Bytes} {odd : Nat} {r : Reader} {stream : List Bool}

/-- **The bits that are cut off are those at the front of the stream.** -/
theorem cut_refines (exhausted : Error) {count : Nat} (hb : headerLength ≤ r.position + 2)
    (hi : r.position + 2 ≤ data.length) (hr : r.register.toNat < 2 ^ r.count)
    (h16 : count ≤ 16) (hc : count ≤ r.count) (hleft : r.count - count < 16) :
    Refines (Reads data (r.position % 2)) (r.cut count)
      (readBits exhausted count
        (highestFirst r.count r.register.toNat ++ wordBits (r.unread data))) := by
  have h32 : count < 32 := by omega
  rw [Accumulator.readBits_cut hc h32 hr (r.unread data) hleft, Reader.cut, subtract_of_le hc,
    pure_bind, shiftRight_of_lt (by omega), pure_bind, lowMask_of_lt h32, pure_bind,
    lowMask_of_lt (by omega), pure_bind]
  refine .ok ⟨rfl, hb, rfl, hi, hleft, ?_, rfl⟩
  exact (Accumulator.cut r.register r.count count (r.unread data) hleft).2.buffer_lt

/-- A word below the register makes its bits longer, and leaves the stream as it is. -/
theorem Holds.refill (h : r.Holds data odd stream) (hp : headerLength ≤ r.position) :
    ∃ r', r.refill data = pure r' ∧ r'.position = r.position - 2 ∧ r'.count = r.count + 16 ∧
      r'.register.toNat < 2 ^ r'.count ∧
      highestFirst r'.count r'.register.toNat ++ wordBits (r'.unread data) = stream := by
  obtain ⟨word, hword, htake⟩ := wordsBackward_take hp h.inside
  have hheader : headerLength = 16 := rfl
  have hposition : r.position - 2 + 2 = r.position := by omega
  have hload := toNat_load h.count_lt h.register_lt word
  have hlt := h.register_lt
  have hw := word.toNat_lt
  refine ⟨⟨r.position - 2, StoneCracker.load r.register word, r.count + 16⟩, ?_, rfl, rfl, ?_, ?_⟩
  · rw [Reader.refill, if_neg (Nat.not_lt.2 hp), hword, subtract_of_le (by omega)]
    rfl
  · show (StoneCracker.load r.register word).toNat < 2 ^ (r.count + 16)
    rw [hload, Nat.pow_add]
    omega
  · have hstream := h.stream
    rw [unread, htake] at hstream
    show highestFirst (r.count + 16) (StoneCracker.load r.register word).toNat
      ++ wordBits (wordsBackward ((data.take (r.position - 2 + 2)).drop headerLength)) = stream
    rw [hposition, hload, ← highestFirst_append hw, List.append_assoc, ← hstream]
    rfl

/-- Behind the header is no word where the stream has ended. -/
theorem Holds.stream_of_short (h : r.Holds data odd stream) (hp : r.position < headerLength) :
    stream.length = r.count ∧ r.position = headerLength - 2 + odd := by
  have hb := h.behind
  have hparity := h.parity
  have hheader : headerLength = 16 := rfl
  have hshort : ((data.take (r.position + 2)).drop headerLength).length < 2 := by
    rw [List.length_drop, List.length_take]
    omega
  have hstream := congrArg List.length h.stream
  rw [unread, wordsBackward_of_short hshort, List.length_append, length_highestFirst] at hstream
  exact ⟨hstream.symm, by omega⟩

/-- The file holds no more bits than there are in front of the position. -/
theorem Holds.length_stream (h : r.Holds data odd stream) : stream.length ≤ r.bitsLeft := by
  have hwords := length_wordsOfReversed ((data.take (r.position + 2)).drop headerLength).reverse
  have hheader : headerLength = 16 := rfl
  rw [List.length_reverse, List.length_drop, List.length_take] at hwords
  rw [← h.stream, List.length_append, length_highestFirst, length_wordBits, unread, wordsBackward,
    bitsLeft]
  omega

/-- **Bits are read as from the stream.** One word is enough where too few bits are there. -/
theorem Holds.bits (h : r.Holds data odd stream) {count : Nat} (h1 : 1 ≤ count)
    (h16 : count ≤ 16) : Refines (Reads data odd) (r.bits data count)
      (readBits (exhaustedAt odd) count stream) := by
  have hcount := h.count_lt
  have hparity := h.parity
  rw [Reader.bits, if_pos ⟨h1, h16⟩, Reader.fill]
  by_cases hc : r.count < count
  · rw [if_pos hc]
    by_cases hp : r.position < headerLength
    · obtain ⟨hlength, hposition⟩ := h.stream_of_short hp
      rw [Reader.refill, if_pos hp, readBits_of_short (by omega), hposition]
      exact .error _
    · have hheader : headerLength = 16 := rfl
      have hi := h.inside
      obtain ⟨r', hrefill, hposition, hcount', hregister, hstream⟩ := h.refill (Nat.not_lt.1 hp)
      have hodd : r'.position % 2 = odd := by omega
      rw [hrefill, pure_bind, Reader.fill, if_neg (by omega), pure_bind, ← hstream, ← hodd]
      exact cut_refines _ (by omega) (by omega) hregister h16 (by omega) (by omega)
  · rw [if_neg hc, pure_bind, ← h.stream, ← hparity]
    exact cut_refines _ h.behind h.inside h.register_lt h16 (Nat.not_lt.1 hc) (by omega)

theorem Holds.bitsBelow (h : r.Holds data odd stream) (high : Nat) {count : Nat} (h1 : 1 ≤ count)
    (h16 : count ≤ 16) : Refines (Reads data odd) (r.bitsBelow data high count)
      (readLow (exhaustedAt odd) high count stream) := by
  rw [readLow, readOnto_eq_map_onto_zero]
  refine (h.bits h1 h16).and_ok.bind_map fun p q hp => .ok ⟨?_, hp.1.2⟩
  have hlt : q.1 < 2 ^ count := (readBits_eq_ok.1 hp.2).1
  show high <<< count ||| p.1 = high * 2 ^ count + q.1
  rw [hp.1.1, ← Nat.shiftLeft_add_eq_or_of_lt hlt, Nat.shiftLeft_eq]

end Reader

end AmigaBinary.Decrunch.StoneCracker
