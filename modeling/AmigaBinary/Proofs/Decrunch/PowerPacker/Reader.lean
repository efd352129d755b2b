import AmigaBinary.Proofs.Decrunch.Checked
import AmigaBinary.Proofs.Decrunch.PowerPacker.Window

/-!
# Reading bits from packed data

The bits of PowerPacker data are read through an index into it that moves to its start, and a
register for one longword. What a reader still has to read is a stream (`Reader.Holds`), and each of
its reads refines the one from the stream (`Reader.Holds.bits`, `Reader.Holds.length`): no index
leaves the data, and a length that goes on and on ends with the data.
-/

namespace AmigaBinary.Decrunch.PowerPacker

open Checked

/-! ## 1. The reader -/

/-- Where the machine is in the packed data: `count` bits of a register are still to be read, then
    the longwords in front of `position`. -/
structure Reader where
  position : Nat
  register : UInt32
  count : Nat

/-- A sum that does not grow beyond the largest word. -/
def saturatingAdd (a b : UInt32) : UInt32 :=
  UInt32.ofNat (min maxLength (a.toNat + b.toNat))

theorem toNat_saturatingAdd (a b : UInt32) :
    (saturatingAdd a b).toNat = min maxLength (a.toNat + b.toNat) :=
  UInt32.toNat_ofNat_of_lt' (Nat.lt_succ_of_le (Nat.min_le_left _ _))

namespace Reader

/-- The longword in front of the position. -/
def load (data : Bytes) (r : Reader) : Checked Reader :=
  if r.position < 4 then throw (.inputExhausted .powerPacker r.position)
  else do
    let position ← subtract r.position 4
    let register ← ofExcept (Bytes.readWord32 data position)
    pure ⟨position, register, 32⟩

/-- The register is loaded if it has no bit left. -/
def refill (data : Bytes) (r : Reader) : Checked Reader :=
  if r.count = 0 then r.load data else pure r

/-- The lowest bit of the register. -/
def bit (data : Bytes) (r : Reader) : Checked (UInt32 × Reader) := do
  let r ← r.refill data
  let count ← subtract r.count 1
  pure (r.register &&& 1, ⟨r.position, r.register >>> 1, count⟩)

/-- The next `count` bits behind those of a value. -/
def bitsOnto (data : Bytes) (value : UInt32) : Nat → Reader → Checked (UInt32 × Reader)
  | 0, r => pure (value, r)
  | count + 1, r => do
    let (bit, r) ← r.bit data
    bitsOnto data (value <<< 1 ||| bit) count r

/-- The next `count` bits. -/
def bits (data : Bytes) (count : Nat) (r : Reader) : Checked (UInt32 × Reader) :=
  bitsOnto data 0 count r

/-- Groups of `width` bits are added to `length` up to the first group that is not all ones. There
    are `limit` groups at most. -/
def groups (data : Bytes) (width : Nat) : Nat → UInt32 → Reader → Checked (UInt32 × Reader)
  | 0, _, _ => fault
  | limit + 1, length, r => do
    let ones ← lowMask width
    let (group, r) ← r.bits data width
    let total := saturatingAdd length group
    if group = ones then groups data width limit total r else pure (total, r)

/-- The number of bits that are still to be read. -/
def bitsLeft (r : Reader) : Nat :=
  8 * r.position + r.count

/-- A length of at least `length`, in no more groups than there are bits. -/
def length (data : Bytes) (width : Nat) (length : UInt32) (r : Reader) :
    Checked (UInt32 × Reader) :=
  groups data width (r.bitsLeft + 1) length r

/-- The window of a reader, with all longwords that it has not loaded yet. -/
def window (data : Bytes) (r : Reader) : Window :=
  ⟨r.register, r.count, longsBackward (data.take r.position)⟩

/-- What a reader still has to read. -/
structure Holds (data : Bytes) (r : Reader) (bits : List Bool) : Prop where
  whole : r.position % 4 = 0
  inside : r.position ≤ data.length
  stream : (r.window data).stream = bits

/-- A value that was read, and what is still to be read. -/
def Reads {α β : Type} (data : Bytes) (V : α → β → Prop) (p : α × Reader) (q : β × List Bool) :
    Prop :=
  V p.1 q.1 ∧ p.2.Holds data q.2

end Reader

/-- The longword in front of a position is read before those in front of it. -/
theorem longsBackward_take {data : Bytes} {position : Nat} (h4 : 4 ≤ position)
    (hle : position ≤ data.length) : ∃ word, Bytes.readWord32 data (position - 4) = .ok word ∧
      longsBackward (data.take position) = word :: longsBackward (data.take (position - 4)) := by
  obtain ⟨word, hword⟩ := Bytes.exists_readWord32 (by omega : position - 4 + 4 ≤ data.length)
  obtain ⟨rest, hrest⟩ := Bytes.readWord32_eq_ok.1 hword
  have htake : data.take position = data.take (position - 4) ++ Bytes.ofWord32 word := by
    have hsplit := List.take_add (l := data) (i := position - 4) (j := 4)
    rw [Nat.sub_add_cancel h4, hrest] at hsplit
    exact hsplit
  refine ⟨word, hword, ?_⟩
  rw [htake, longsBackward_append]

/-- The first bit of a stream. -/
def firstBit : List Bool → Except Error (Bool × List Bool)
  | [] => .error exhausted
  | bit :: bits => .ok (bit, bits)

theorem readOnto_succ (high count : Nat) (bits : List Bool) :
    readOnto exhausted high (count + 1) bits = (do
      let (bit, bits) ← firstBit bits
      readOnto exhausted (2 * high + bit.toNat) count bits) := by
  cases bits <;> rfl

namespace Reader

variable {data : Bytes} {r : Reader} {stream : List Bool}

theorem Holds.length_stream (h : r.Holds data stream) : stream.length = r.bitsLeft := by
  have htake : (data.take r.position).length = r.position := by
    rw [List.length_take, Nat.min_eq_left h.inside]
  have hlongs := length_longsBackward (htake.symm ▸ h.whole)
  rw [htake] at hlongs
  rw [← h.stream, window, Window.stream, List.length_append, length_lowestFirst, length_longBits,
    bitsLeft]
  dsimp only
  omega

/-- An empty register is loaded with the longword at the front of the stream. -/
theorem Holds.load (h : r.Holds data stream) (h0 : r.count = 0) :
    Refines (fun r' bits' => r'.Holds data bits' ∧ 0 < r'.count) (r.load data)
      (if stream = [] then .error exhausted else .ok stream) := by
  have hwhole := h.whole
  have hinside := h.inside
  have hlength := h.length_stream
  rw [bitsLeft, h0] at hlength
  by_cases h4 : r.position < 4
  · have hposition : r.position = 0 := by omega
    have hnil : stream = [] := List.length_eq_zero_iff.1 (by omega)
    rw [Reader.load, if_pos h4, if_pos hnil, hposition]
    exact .error _
  · obtain ⟨word, hword, htake⟩ := longsBackward_take (Nat.not_lt.1 h4) hinside
    have hstream := h.stream
    rw [window, h0, htake] at hstream
    have hbits : stream ≠ [] := List.ne_nil_of_length_pos (by omega)
    have hload : r.load data = pure ⟨r.position - 4, word, 32⟩ := by
      rw [Reader.load, if_neg h4, subtract_of_le (Nat.not_lt.1 h4), pure_bind, hword]
      rfl
    rw [hload, if_neg hbits]
    exact .ok ⟨⟨by show (r.position - 4) % 4 = 0; omega,
      by show r.position - 4 ≤ data.length; omega, hstream⟩, Nat.succ_pos 31⟩

/-- **A register is loaded as long as there is something to read.** -/
theorem Holds.refill (h : r.Holds data stream) :
    Refines (fun r' bits' => r'.Holds data bits' ∧ 0 < r'.count) (r.refill data)
      (if stream = [] then .error exhausted else .ok stream) := by
  unfold Reader.refill
  by_cases h0 : r.count = 0
  · rw [if_pos h0]
    exact h.load h0
  · have hlength := h.length_stream
    rw [bitsLeft] at hlength
    have hbits : stream ≠ [] := List.ne_nil_of_length_pos (by omega)
    rw [if_neg h0, if_neg hbits]
    exact .ok ⟨h, Nat.pos_of_ne_zero h0⟩

theorem toNat_and_one (word : UInt32) : (word &&& 1).toNat = (word.toNat.testBit 0).toNat := by
  rw [UInt32.toNat_and, UInt32.toNat_one, Nat.and_one_is_mod, Nat.testBit_zero]
  rcases Nat.mod_two_eq_zero_or_one word.toNat with h | h <;> rw [h] <;> rfl

/-- **The next bit is the first one of the stream.** -/
theorem Holds.bit (h : r.Holds data stream) :
    Refines (Reads data fun v b => v.toNat = b.toNat) (r.bit data) (firstBit stream) := by
  have hfirst : firstBit stream
      = (if stream = [] then .error exhausted else .ok stream) >>= firstBit := by
    cases stream <;> rfl
  rw [hfirst, Reader.bit]
  refine h.refill.bind fun r' bits' hload => ?_
  obtain ⟨h', hcount⟩ := hload
  rw [subtract_of_le hcount, pure_bind, ← h'.stream, Window.stream_shift hcount]
  exact .ok ⟨toNat_and_one r'.register, h'.whole, h'.inside, rfl⟩

/-- A word with a bit behind it. Its highest bit is lost. -/
theorem toNat_shiftLeft_or {value bit : UInt32} {high : Nat} {b : Bool}
    (hv : value.toNat = high % 2 ^ 32) (hb : bit.toNat = b.toNat) :
    (value <<< 1 ||| bit).toNat = (2 * high + b.toNat) % 2 ^ 32 := by
  have h1 : (1 : UInt32).toNat % 32 = 1 := rfl
  have hbit : b.toNat < 2 ^ 1 := by cases b <;> decide
  have hshift : value.toNat <<< 1 % 2 ^ 32 = (value.toNat % 2 ^ 31) <<< 1 := by
    rw [Nat.shiftLeft_eq, Nat.shiftLeft_eq]
    omega
  rw [UInt32.toNat_or, UInt32.toNat_shiftLeft, h1, hshift, hb, ← Nat.shiftLeft_add_eq_or_of_lt hbit,
    Nat.shiftLeft_eq, hv]
  omega

theorem Holds.bitsOnto (h : r.Holds data stream) {value : UInt32} {high : Nat}
    (hv : value.toNat = high % 2 ^ 32) (count : Nat) :
    Refines (Reads data fun v n => v.toNat = n % 2 ^ 32) (bitsOnto data value count r)
      (readOnto exhausted high count stream) := by
  induction count generalizing r stream value high with
  | zero => exact .ok ⟨hv, h⟩
  | succ count ih =>
      rw [Reader.bitsOnto, readOnto_succ]
      refine h.bit.bind fun p q hp => ?_
      exact ih hp.2 (toNat_shiftLeft_or hv hp.1)

/-- **Bits are read as from the stream.** Of more than 32 bits the highest ones are lost. -/
theorem Holds.bits (h : r.Holds data stream) (count : Nat) :
    Refines (Reads data fun v n => v.toNat = n % 2 ^ 32) (r.bits data count)
      (readBits exhausted count stream) :=
  h.bitsOnto rfl count

theorem Holds.bits_of_le (h : r.Holds data stream) {count : Nat} (hc : count ≤ 32) :
    Refines (Reads data fun v n => v.toNat = n ∧ n < 2 ^ count) (r.bits data count)
      (readBits exhausted count stream) := by
  refine (h.bits count).and_ok.mono fun p q hp => ?_
  obtain ⟨⟨hvalue, hrest⟩, hread⟩ := hp
  have hlt : q.1 < 2 ^ count := (readBits_eq_ok.1 hread).1
  have hmod : q.1 % 2 ^ 32 = q.1 :=
    Nat.mod_eq_of_lt (Nat.lt_of_lt_of_le hlt (Nat.pow_le_pow_right (by decide) hc))
  exact ⟨⟨hvalue.trans hmod, hlt⟩, hrest⟩

/-- A single bit is read as a value of one bit. -/
theorem Holds.bit_value (h : r.Holds data stream) :
    Refines (Reads data fun v n => v.toNat = n) (r.bit data) (readBits exhausted 1 stream) := by
  rw [← bind_pure (r.bit data), readBits, readOnto_succ]
  refine h.bit.bind fun p q hp => .ok ⟨?_, hp.2⟩
  show p.1.toNat = 2 * 0 + q.1.toNat
  rw [hp.1, Nat.mul_zero, Nat.zero_add]

/-- The bits of a distance are read as one that has 32 bits at most. -/
theorem Holds.distance (h : r.Holds data stream) (width : Nat) :
    Refines (Reads data fun v n => v.toNat = n) (r.bits data width)
      (readDistance width stream) := by
  rw [← bind_pure (r.bits data width)]
  exact (h.bits width).bind fun p q hp => .ok hp

theorem readLength_eq (width : Nat) (positive : 0 < width) (length : Nat) (bits : List Bool) :
    readLength width positive length bits = (do
      let (group, rest) ← readBits exhausted width bits
      let total := min maxLength (length + group)
      if group = 1 <<< width - 1 then readLength width positive total rest
      else .ok (total, rest)) := by
  rw [readLength]
  cases readBits exhausted width bits <;> rfl

theorem Holds.groups (h : r.Holds data stream) {width : Nat} (positive : 0 < width)
    (hw : width < 32) {length : UInt32} {limit : Nat} (hlimit : stream.length < limit) :
    Refines (Reads data fun v n => v.toNat = n) (groups data width limit length r)
      (readLength width positive length.toNat stream) := by
  induction limit generalizing r stream length with
  | zero => omega
  | succ limit ih =>
      rw [Reader.groups, readLength_eq, lowMask_of_lt hw, pure_bind]
      refine (h.bits_of_le (Nat.le_of_lt hw)).and_ok.bind fun p q hp => ?_
      obtain ⟨group, r'⟩ := p
      obtain ⟨value, rest⟩ := q
      obtain ⟨⟨⟨hvalue, hlt⟩, hrest⟩, hread⟩ := hp
      simp only at hvalue hlt hrest
      have htotal : (saturatingAdd length group).toNat = min maxLength (length.toNat + value) := by
        rw [toNat_saturatingAdd, hvalue]
      have hones : group = 1 <<< UInt32.ofNat width - 1 ↔ value = 1 <<< width - 1 := by
        rw [← UInt32.toNat_inj, toNat_ones hw, hvalue, Nat.one_shiftLeft]
      dsimp only
      by_cases hall : value = 1 <<< width - 1
      · rw [if_pos (hones.2 hall), if_pos hall, ← htotal]
        -- each group takes bits from the stream
        have hshort := length_of_readBits hread
        exact ih hrest (by omega)
      · rw [if_neg fun h => hall (hones.1 h), if_neg hall]
        exact .ok ⟨htotal, hrest⟩

/-- **A length is read as from the stream**, group by group. -/
theorem Holds.length (h : r.Holds data stream) {width : Nat} (positive : 0 < width)
    (hw : width < 32) {length : UInt32} :
    Refines (Reads data fun v n => v.toNat = n) (r.length data width length)
      (readLength width positive length.toNat stream) :=
  h.groups positive hw (Nat.lt_succ_of_le (Nat.le_of_eq h.length_stream))

end Reader

end AmigaBinary.Decrunch.PowerPacker
