import AmigaBinary.Decrunch.BitList
import AmigaBinary.Proofs.Success
import AmigaBinary.Proofs.Words
import Mathlib.Tactic.Linarith
import Mathlib.Tactic.Ring

/-!
# Bits, numbers and words

Reading a value takes exactly the bits of that value (`readBits_eq_ok`), and bits packed into words
come back from the words in the same order, with zero bits behind them up to a whole word
(`longBits_packLongs`). Words written from the end of the data to its start are read in this order
(`longsBackward_writeBackward`). A number of any size is written in groups of bits, of which the
last one is not all ones (`groupBits`).
-/

namespace AmigaBinary.Decrunch

/-! ## 1. The bits of a number -/

@[simp] theorem length_lowestFirst (width n : Nat) : (lowestFirst width n).length = width := by
  simp [lowestFirst]

@[simp] theorem length_highestFirst (width n : Nat) : (highestFirst width n).length = width := by
  simp [highestFirst]

theorem lowestFirst_succ (width n : Nat) :
    lowestFirst (width + 1) n = n.testBit 0 :: lowestFirst width (n / 2) := by
  simp only [lowestFirst, List.range_succ_eq_map, List.map_cons, List.map_map]
  congr 1
  apply List.map_congr_left
  intro i _
  exact Nat.testBit_succ n i

theorem highestFirst_succ (width n : Nat) :
    highestFirst (width + 1) n = n.testBit width :: highestFirst width n := by
  simp [highestFirst, lowestFirst, List.range_succ]

/-- The bits above the lowest ones are those of the quotient. -/
theorem lowestFirst_add (low width n : Nat) :
    lowestFirst (low + width) n = lowestFirst low n ++ lowestFirst width (n / 2 ^ low) := by
  unfold lowestFirst
  rw [List.range_add, List.map_append, List.map_map]
  congr 1
  apply List.map_congr_left
  intro i _
  show n.testBit (low + i) = (n / 2 ^ low).testBit i
  rw [Nat.testBit_div_two_pow, Nat.add_comm]

theorem highestFirst_add (width low n : Nat) :
    highestFirst (width + low) n = highestFirst width (n / 2 ^ low) ++ highestFirst low n := by
  unfold highestFirst
  rw [Nat.add_comm, lowestFirst_add, List.reverse_append]

/-- Bits above the width do not show. -/
theorem highestFirst_mod (width n : Nat) :
    highestFirst width (n % 2 ^ width) = highestFirst width n := by
  unfold highestFirst lowestFirst
  congr 1
  apply List.map_congr_left
  intro i hi
  rw [Nat.testBit_mod_two_pow, decide_eq_true (List.mem_range.1 hi), Bool.true_and]

theorem highestFirst_div_mod (width low n : Nat) :
    highestFirst (width + low) n
      = highestFirst width (n / 2 ^ low) ++ highestFirst low (n % 2 ^ low) := by
  rw [highestFirst_mod, highestFirst_add]

/-- The highest of `width + 1` bits, and the number without it. -/
theorem eq_highest_add {width n : Nat} (h : n < 2 ^ (width + 1)) :
    n = (n.testBit width).toNat * 2 ^ width + n % 2 ^ width := by
  have hq : n / 2 ^ width < 2 := by
    rw [Nat.div_lt_iff_lt_mul (Nat.two_pow_pos width), Nat.mul_comm, ← Nat.pow_succ]
    exact h
  have hb : (n.testBit width).toNat = n / 2 ^ width := by
    rw [Nat.testBit_eq_decide_div_mod_eq]
    generalize n / 2 ^ width = q at hq ⊢
    match q, hq with
    | 0, _ => rfl
    | 1, _ => rfl
  rw [hb, Nat.mul_comm]
  exact (Nat.div_add_mod n (2 ^ width)).symm

theorem testBit_highest (bit : Bool) {width low : Nat} (h : low < 2 ^ width) :
    (bit.toNat * 2 ^ width + low).testBit width = bit := by
  rw [Nat.mul_comm, Nat.testBit_two_pow_mul_add _ h, if_neg (Nat.lt_irrefl width), Nat.sub_self]
  cases bit <;> rfl

/-- A bit above the lower ones comes first. -/
theorem highestFirst_highest (bit : Bool) {width low : Nat} (h : low < 2 ^ width) :
    highestFirst (width + 1) (bit.toNat * 2 ^ width + low) = bit :: highestFirst width low := by
  have hm : (bit.toNat * 2 ^ width + low) % 2 ^ width = low := by
    rw [Nat.mul_add_mod', Nat.mod_eq_of_lt h]
  rw [highestFirst_succ, testBit_highest bit h, ← highestFirst_mod, hm]

theorem highest_add_lt (bit : Bool) {width low : Nat} (h : low < 2 ^ width) :
    bit.toNat * 2 ^ width + low < 2 ^ (width + 1) := by
  have hb : bit.toNat * 2 ^ width ≤ 1 * 2 ^ width := Nat.mul_le_mul_right _ (Bool.toNat_le bit)
  rw [Nat.pow_succ]
  omega

/-- Numbers of as many bits are the same if their bits are. -/
theorem highestFirst_inj {width a b : Nat} (ha : a < 2 ^ width) (hb : b < 2 ^ width)
    (h : highestFirst width a = highestFirst width b) : a = b := by
  induction width generalizing a b with
  | zero =>
      simp only [Nat.pow_zero, Nat.lt_one_iff] at ha hb
      rw [ha, hb]
  | succ width ih =>
      rw [highestFirst_succ, highestFirst_succ, List.cons.injEq] at h
      have hp := Nat.two_pow_pos width
      have hl := ih (Nat.mod_lt a hp) (Nat.mod_lt b hp)
        (by rw [highestFirst_mod, highestFirst_mod]; exact h.2)
      rw [eq_highest_add ha, eq_highest_add hb, h.1, hl]

/-- Bits behind others are the lower ones of a number. -/
theorem highestFirst_append {low place : Nat} (h : place < 2 ^ low) (width high : Nat) :
    highestFirst width high ++ highestFirst low place
      = highestFirst (width + low) (high * 2 ^ low + place) := by
  have hd : (high * 2 ^ low + place) / 2 ^ low = high := by
    rw [Nat.add_comm, Nat.add_mul_div_right _ _ (Nat.two_pow_pos low), Nat.div_eq_of_lt h,
      Nat.zero_add]
  have hm : (high * 2 ^ low + place) % 2 ^ low = place := by
    rw [Nat.mul_add_mod', Nat.mod_eq_of_lt h]
  rw [highestFirst_add, hd, ← highestFirst_mod low (high * 2 ^ low + place), hm]

/-- Streams that start with the bits of numbers start with the same number if they are the same. -/
theorem append_highestFirst_inj {width a b : Nat} {rest rest' : List Bool} (ha : a < 2 ^ width)
    (hb : b < 2 ^ width) (h : highestFirst width a ++ rest = highestFirst width b ++ rest') :
    a = b ∧ rest = rest' := by
  obtain ⟨hbits, hrest⟩ := List.append_inj h (by simp)
  exact ⟨highestFirst_inj ha hb hbits, hrest⟩

/-- Any bits are those of a number. -/
theorem exists_highestFirst (bits : List Bool) :
    ∃ n < 2 ^ bits.length, highestFirst bits.length n = bits := by
  induction bits with
  | nil => exact ⟨0, by decide, rfl⟩
  | cons bit bits ih =>
      obtain ⟨n, hn, hbits⟩ := ih
      refine ⟨bit.toNat * 2 ^ bits.length + n, highest_add_lt bit hn, ?_⟩
      rw [List.length_cons, highestFirst_highest bit hn, hbits]

/-! ## 2. Reading values -/

theorem readOnto_eq_ok {exhausted : Error} {high count value : Nat} {bits rest : List Bool} :
    readOnto exhausted high count bits = .ok (value, rest) ↔
      ∃ low < 2 ^ count, value = high * 2 ^ count + low ∧
        bits = highestFirst count low ++ rest := by
  induction count generalizing high bits with
  | zero =>
      simp only [readOnto, Except.ok.injEq, Prod.mk.injEq, Nat.pow_zero, Nat.lt_one_iff]
      constructor
      · rintro ⟨rfl, rfl⟩
        exact ⟨0, rfl, by omega, rfl⟩
      · rintro ⟨_, rfl, rfl, rfl⟩
        exact ⟨by omega, rfl⟩
  | succ count ih =>
      cases bits with
      | nil =>
          rw [readOnto]
          simp [highestFirst_succ]
      | cons bit bits =>
          rw [readOnto, ih]
          have hp := Nat.pow_succ 2 count
          constructor
          · rintro ⟨low, hl, rfl, rfl⟩
            refine ⟨bit.toNat * 2 ^ count + low, highest_add_lt bit hl, by rw [hp]; ring, ?_⟩
            rw [highestFirst_highest bit hl, List.cons_append]
          · rintro ⟨low, hl, rfl, h⟩
            rw [highestFirst_succ, List.cons_append, List.cons.injEq] at h
            obtain ⟨rfl, rfl⟩ := h
            refine ⟨low % 2 ^ count, Nat.mod_lt _ (Nat.two_pow_pos count), ?_, ?_⟩
            · have := eq_highest_add hl
              rw [hp]
              linarith
            · rw [highestFirst_mod]

/-- Bits whose value is known are read with what follows them. -/
theorem readOnto_append (exhausted : Error) {width low : Nat} (h : low < 2 ^ width)
    (high count : Nat) (bits : List Bool) :
    readOnto exhausted high (width + count) (highestFirst width low ++ bits)
      = readOnto exhausted (high * 2 ^ width + low) count bits := by
  induction width generalizing high low with
  | zero =>
      have h0 : low = 0 := Nat.lt_one_iff.1 h
      rw [Nat.zero_add, h0, Nat.pow_zero, Nat.mul_one, Nat.add_zero]
      rfl
  | succ width ih =>
      have hlow := eq_highest_add h
      have hmod : low % 2 ^ width < 2 ^ width := Nat.mod_lt low (Nat.two_pow_pos width)
      have hvalue : (2 * high + (low.testBit width).toNat) * 2 ^ width + low % 2 ^ width
          = high * 2 ^ (width + 1) + low := by
        rw [Nat.pow_succ]
        linarith
      rw [highestFirst_succ, List.cons_append, Nat.add_right_comm, readOnto, ← highestFirst_mod,
        ih hmod, hvalue]

/-- **A read takes exactly the bits of the value that it answers with.** -/
theorem readBits_eq_ok {exhausted : Error} {count value : Nat} {bits rest : List Bool} :
    readBits exhausted count bits = .ok (value, rest) ↔
      value < 2 ^ count ∧ bits = highestFirst count value ++ rest := by
  rw [readBits, readOnto_eq_ok]
  constructor
  · rintro ⟨low, hl, rfl, rfl⟩
    rw [Nat.zero_mul, Nat.zero_add]
    exact ⟨hl, rfl⟩
  · rintro ⟨hv, rfl⟩
    exact ⟨value, hv, by rw [Nat.zero_mul, Nat.zero_add], rfl⟩

/-- A read of more bits than there are fails. -/
theorem readBits_of_short {exhausted : Error} {count : Nat} {bits : List Bool}
    (h : bits.length < count) : readBits exhausted count bits = .error exhausted := by
  have hall : ∀ high, readOnto exhausted high count bits = .error exhausted := by
    induction count generalizing bits with
    | zero => exact absurd h (Nat.not_lt_zero _)
    | succ count ih =>
        intro high
        cases bits with
        | nil => rfl
        | cons bit bits => exact ih (Nat.lt_of_succ_lt_succ h) _
  exact hall 0

/-- A computation that starts with a read goes on with the value and the bits behind it. -/
theorem readBits_bind_eq_ok {α : Type} {exhausted : Error} {count : Nat} {bits : List Bool}
    {f : Nat × List Bool → Except Error α} {a : α} :
    (readBits exhausted count bits >>= f) = .ok a ↔
      ∃ value rest, value < 2 ^ count ∧ bits = highestFirst count value ++ rest ∧
        f (value, rest) = .ok a := by
  rw [bind_eq_ok]
  constructor
  · rintro ⟨⟨value, rest⟩, hr, h⟩
    obtain ⟨hv, rfl⟩ := readBits_eq_ok.1 hr
    exact ⟨value, rest, hv, rfl, h⟩
  · rintro ⟨value, rest, hv, rfl, h⟩
    exact ⟨(value, rest), readBits_eq_ok.2 ⟨hv, rfl⟩, h⟩

theorem readBits_one {exhausted : Error} (bit : Bool) (bits : List Bool) :
    readBits exhausted 1 (bit :: bits) = .ok (bit.toNat, bits) := by
  cases bit <;> rfl

theorem readBits_two {exhausted : Error} (high low : Bool) (bits : List Bool) :
    readBits exhausted 2 (high :: low :: bits) = .ok (2 * high.toNat + low.toNat, bits) := by
  cases high <;> cases low <;> rfl

/-! ## 3. The number that bits make -/

/-- The number with the given bits, the lowest first. -/
def numberOf : List Bool → Nat
  | [] => 0
  | bit :: bits => bit.toNat + 2 * numberOf bits

theorem numberOf_lt (bits : List Bool) : numberOf bits < 2 ^ bits.length := by
  induction bits with
  | nil => simp [numberOf]
  | cons bit bits ih =>
      have hb := Bool.toNat_le bit
      rw [numberOf, List.length_cons, Nat.pow_succ]
      omega

theorem numberOf_eq_zero {bits : List Bool} : numberOf bits = 0 ↔ bits.any id = false := by
  induction bits with
  | nil => simp [numberOf]
  | cons bit bits ih => cases bit <;> simp [numberOf, ← ih]

/-- The lowest bits of a number made of bits are these bits, whatever stands above them. -/
theorem lowestFirst_numberOf (bits : List Bool) (high : Nat) :
    lowestFirst bits.length (numberOf bits + 2 ^ bits.length * high) = bits := by
  induction bits with
  | nil => rfl
  | cons bit bits ih =>
      have hp : 2 ^ (bits.length + 1) * high = 2 * (2 ^ bits.length * high) := by
        rw [Nat.pow_succ]
        ring
      have hd : (bit.toNat + 2 * numberOf bits + 2 * (2 ^ bits.length * high)) / 2
          = numberOf bits + 2 ^ bits.length * high := by
        have hb := Bool.toNat_le bit
        omega
      rw [List.length_cons, lowestFirst_succ, numberOf, hp, hd, ih, Nat.testBit_zero]
      congr 1
      cases bit <;> simp

/-- The lowest bits of a number make the number up to its higher bits. -/
theorem numberOf_lowestFirst (width n : Nat) : numberOf (lowestFirst width n) = n % 2 ^ width := by
  induction width generalizing n with
  | zero => simp [lowestFirst, numberOf, Nat.mod_one]
  | succ width ih =>
      rw [lowestFirst_succ, numberOf, ih, Nat.testBit_zero, Nat.pow_succ, Nat.mul_comm (2 ^ width),
        Nat.mod_mul]
      rcases Nat.mod_two_eq_zero_or_one n with h | h <;> simp [h]

/-! ## 4. Bits in words -/

/-- Bits packed into 32-bit words, the lowest bit of a word first. The last word is filled up with
    zero bits. -/
def packLongs (bits : List Bool) : List UInt32 :=
  if bits = [] then [] else UInt32.ofNat (numberOf (bits.take 32)) :: packLongs (bits.drop 32)
termination_by bits.length
decreasing_by
  rename_i hb
  have := List.length_pos_iff.2 hb
  simp only [List.length_drop]
  omega

theorem length_packLongs (bits : List Bool) :
    (packLongs bits).length = (bits.length + 31) / 32 := by
  induction bits using packLongs.induct with
  | case1 => simp [packLongs]
  | case2 bits hb ih =>
      have hpos := List.length_pos_iff.2 hb
      rw [packLongs, if_neg hb, List.length_cons, ih, List.length_drop]
      omega

/-- All bits of words, in reading order. -/
def longBits (words : List UInt32) : List Bool :=
  words.flatMap fun word => lowestFirst 32 word.toNat

theorem length_longBits (words : List UInt32) : (longBits words).length = 32 * words.length := by
  induction words with
  | nil => rfl
  | cons word words ih =>
      show (lowestFirst 32 word.toNat ++ longBits words).length = _
      rw [List.length_append, length_lowestFirst, ih, List.length_cons]
      omega

theorem toNat_shiftRight {shift : Nat} (h : shift < 32) (word : UInt32) :
    (word >>> UInt32.ofNat shift).toNat = word.toNat / 2 ^ shift := by
  have hshift : (UInt32.ofNat shift).toNat % 32 = shift := by
    rw [UInt32.toNat_ofNat_of_lt' (Nat.lt_trans h (by decide))]
    exact Nat.mod_eq_of_lt h
  rw [UInt32.toNat_shiftRight, hshift, Nat.shiftRight_eq_div_pow]

/-- The word with a single bit. -/
theorem toNat_one_shiftLeft {n : Nat} (h : n < 32) :
    (1 <<< UInt32.ofNat n : UInt32).toNat = 2 ^ n := by
  have hn : (UInt32.ofNat n).toNat % 32 = n := by
    rw [UInt32.toNat_ofNat_of_lt' (Nat.lt_trans h (by decide)), Nat.mod_eq_of_lt h]
  have hlt : 2 ^ n < 2 ^ 32 := Nat.pow_lt_pow_right (by decide) h
  rw [UInt32.toNat_shiftLeft, hn, Nat.shiftLeft_eq, UInt32.toNat_one, Nat.one_mul,
    Nat.mod_eq_of_lt hlt]

theorem one_le_one_shiftLeft {n : Nat} (h : n < 32) : (1 : UInt32) ≤ 1 <<< UInt32.ofNat n := by
  rw [UInt32.le_iff_toNat_le, toNat_one_shiftLeft h]
  exact Nat.two_pow_pos n

/-- The word of which the lowest bits are set. -/
theorem toNat_ones {n : Nat} (h : n < 32) :
    (1 <<< UInt32.ofNat n - 1 : UInt32).toNat = 2 ^ n - 1 := by
  rw [UInt32.toNat_sub_of_le _ _ (one_le_one_shiftLeft h), toNat_one_shiftLeft h]
  rfl

/-- A word without its lowest bit. -/
theorem toNat_shift (word : UInt32) : (word >>> 1).toNat = word.toNat / 2 :=
  toNat_shiftRight (by decide : 1 < 32) word

/-- The zero bits that fill the last word up. -/
def padding (length : Nat) : List Bool :=
  List.replicate ((32 - length % 32) % 32) false

theorem numberOf_append_zeros (bits : List Bool) (n : Nat) :
    numberOf (bits ++ List.replicate n false) = numberOf bits := by
  induction bits with
  | nil =>
      induction n with
      | zero => rfl
      | succ n ih =>
          show false.toNat + 2 * numberOf ([] ++ List.replicate n false) = numberOf []
          rw [ih]
          rfl
  | cons bit bits ih => rw [List.cons_append, numberOf, ih, numberOf]

/-- **The bits of packed words are the packed bits and the zero bits behind them.** -/
theorem longBits_packLongs (bits : List Bool) :
    longBits (packLongs bits) = bits ++ padding bits.length := by
  induction bits using packLongs.induct with
  | case1 => simp [packLongs, longBits, padding]
  | case2 bits hb ih =>
      rw [packLongs, if_neg hb]
      show lowestFirst 32 (UInt32.ofNat (numberOf (bits.take 32))).toNat
        ++ longBits (packLongs (bits.drop 32)) = _
      have hlt := numberOf_lt (bits.take 32)
      rw [ih, UInt32.toNat_ofNat']
      rcases Nat.lt_or_ge bits.length 32 with hl | hl
      · -- the last word: its free bits are the padding
        have hd : bits.drop 32 = [] := List.drop_eq_nil_of_le (Nat.le_of_lt hl)
        have hz : (bits ++ List.replicate (32 - bits.length) false).length = 32 := by
          simp only [List.length_append, List.length_replicate]
          omega
        have hpow : 2 ^ bits.length < 2 ^ 32 := Nat.pow_lt_pow_right (by decide) hl
        have hpos := List.length_pos_iff.2 hb
        rw [List.take_of_length_le (Nat.le_of_lt hl)] at hlt ⊢
        rw [hd, Nat.mod_eq_of_lt (Nat.lt_trans hlt hpow),
          ← numberOf_append_zeros bits (32 - bits.length)]
        have hw := lowestFirst_numberOf (bits ++ List.replicate (32 - bits.length) false) 0
        rw [hz, Nat.mul_zero, Nat.add_zero] at hw
        have h0 : padding ([] : List Bool).length = [] := rfl
        have hm : (32 - bits.length) % 32 = 32 - bits.length := Nat.mod_eq_of_lt (by omega)
        rw [hw, h0, padding, Nat.mod_eq_of_lt hl, hm, List.append_nil, List.append_nil]
      · have ht : (bits.take 32).length = 32 := by
          rw [List.length_take]
          omega
        have hw := lowestFirst_numberOf (bits.take 32) 0
        rw [ht] at hlt
        rw [ht, Nat.mul_zero, Nat.add_zero] at hw
        have hm : (bits.drop 32).length % 32 = bits.length % 32 := by
          rw [List.length_drop]
          omega
        rw [Nat.mod_eq_of_lt hlt, hw, padding, padding, hm, ← List.append_assoc,
          List.take_append_drop]

/-! ## 5. Words written backwards -/

/-- Words in the order in which they are read, written from the end to the start. -/
def writeBackward (words : List UInt32) : Bytes :=
  words.reverse.flatMap Bytes.ofWord32

theorem writeBackward_cons (word : UInt32) (words : List UInt32) :
    writeBackward (word :: words) = writeBackward words ++ Bytes.ofWord32 word := by
  simp [writeBackward]

theorem length_writeBackward (words : List UInt32) :
    (writeBackward words).length = 4 * words.length := by
  induction words with
  | nil => rfl
  | cons word words ih =>
      rw [writeBackward_cons, List.length_append, ih, List.length_cons, Bytes.length_ofWord32]
      omega

/-- The word at the end of data is read first. -/
theorem longsBackward_append (data : Bytes) (word : UInt32) :
    longsBackward (data ++ Bytes.ofWord32 word) = word :: longsBackward data := by
  rw [longsBackward, List.reverse_append]
  show Bytes.word32 (((word >>> 16).toUInt16 >>> 8).toUInt8) ((word >>> 16).toUInt16.toUInt8)
      ((word.toUInt16 >>> 8).toUInt8) (word.toUInt16.toUInt8) :: longsOfReversed data.reverse = _
  rw [Bytes.word32_ofWord32]
  rfl

/-- Words written behind other data are read before it. -/
theorem longsBackward_append_writeBackward (data : Bytes) (words : List UInt32) :
    longsBackward (data ++ writeBackward words) = words ++ longsBackward data := by
  induction words with
  | nil =>
      show longsBackward (data ++ []) = longsBackward data
      rw [List.append_nil]
  | cons word words ih =>
      rw [writeBackward_cons, ← List.append_assoc, longsBackward_append, ih, List.cons_append]

/-- **Words written backwards are read in their order.** -/
theorem longsBackward_writeBackward (words : List UInt32) :
    longsBackward (writeBackward words) = words := by
  have h := longsBackward_append_writeBackward [] words
  rw [List.nil_append] at h
  rw [h]
  exact List.append_nil words

theorem writeBackward_longsOfReversed : ∀ reversed : Bytes, reversed.length % 4 = 0 →
    writeBackward (longsOfReversed reversed) = reversed.reverse
  | [], _ => rfl
  | [_], h => by simp at h
  | [_, _], h => by simp at h
  | [_, _, _], h => by simp at h
  | d :: c :: b :: a :: rest, h => by
      have hr : rest.length % 4 = 0 := by
        simp only [List.length_cons] at h
        omega
      rw [longsOfReversed, writeBackward_cons, writeBackward_longsOfReversed rest hr,
        Bytes.ofWord32_word32]
      simp

/-- Data of whole words is what its words write. -/
theorem writeBackward_longsBackward {data : Bytes} (h : data.length % 4 = 0) :
    writeBackward (longsBackward data) = data := by
  have hr := writeBackward_longsOfReversed data.reverse (by rw [List.length_reverse]; exact h)
  rw [List.reverse_reverse] at hr
  exact hr

theorem length_longsBackward {data : Bytes} (h : data.length % 4 = 0) :
    4 * (longsBackward data).length = data.length := by
  rw [← length_writeBackward, writeBackward_longsBackward h]

/-! ## 6. Numbers in groups -/

/-- A number in groups of `width` bits. A group of ones stands for `2 ^ width - 1`, and another
    group follows it; the first other group is the last one. -/
def groupBits (width n : Nat) : List Bool :=
  List.replicate (width * (n / (2 ^ width - 1))) true ++ highestFirst width (n % (2 ^ width - 1))

theorem length_groupBits (width n : Nat) :
    (groupBits width n).length = width * (n / (2 ^ width - 1)) + width := by
  unfold groupBits
  rw [List.length_append, List.length_replicate, length_highestFirst]

theorem highestFirst_ones (width : Nat) :
    highestFirst width (2 ^ width - 1) = List.replicate width true := by
  induction width with
  | zero => rfl
  | succ width ih =>
      have hp := Nat.two_pow_pos width
      have he : 2 ^ (width + 1) - 1 = true.toNat * 2 ^ width + (2 ^ width - 1) := by
        rw [Nat.pow_succ, Bool.toNat_true]
        omega
      rw [he, highestFirst_highest true (Nat.sub_lt hp Nat.one_pos), ih, List.replicate_succ]

/-- A number that fits one group has no other. -/
theorem groupBits_of_lt {width n : Nat} (h : n < 2 ^ width - 1) :
    groupBits width n = highestFirst width n := by
  unfold groupBits
  rw [Nat.div_eq_of_lt h, Nat.mod_eq_of_lt h, Nat.mul_zero]
  rfl

/-- A larger number has a group of ones in front. -/
theorem groupBits_add {width : Nat} (hw : 0 < width) (n : Nat) :
    groupBits width (n + (2 ^ width - 1))
      = highestFirst width (2 ^ width - 1) ++ groupBits width n := by
  have hp : 1 < 2 ^ width := Nat.one_lt_two_pow (Nat.pos_iff_ne_zero.1 hw)
  have hones : 0 < 2 ^ width - 1 := Nat.sub_pos_of_lt hp
  unfold groupBits
  rw [Nat.add_div_right n hones, Nat.add_mod_right, Nat.mul_succ, Nat.add_comm (width * _),
    ← List.replicate_append_replicate, highestFirst_ones, List.append_assoc]

end AmigaBinary.Decrunch
