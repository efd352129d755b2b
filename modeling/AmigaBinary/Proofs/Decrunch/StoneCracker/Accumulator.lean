import AmigaBinary.Decrunch.StoneCracker
import AmigaBinary.Proofs.Decrunch.Bits

/-!
# The accumulator behind the bits

The bits of a stream are packed into words of 16 bits, highest first (`wordBits_packWords`), which
are written backwards (`wordsBackward_writeWordsBackward`). They come out of an accumulator of 32
bits, to which a word is added below when it holds too few bits. It holds less than 16 bits between
two reads and nothing above them, so no bit is ever shifted out of it (`toNat_load`), and it reads
what stands at the front of its stream (`readBits_stream`, `readAll_stream`).
-/

namespace AmigaBinary.Decrunch.StoneCracker

/-! ## 1. Bits in words -/

/-- The word that starts with the given bits, highest first. The other bits are zero. -/
def wordOf (bits : List Bool) : UInt16 :=
  UInt16.ofNat (numberOf (bits ++ List.replicate (16 - bits.length) false).reverse)

theorem highestFirst_wordOf (bits : List Bool) (h : bits.length ≤ 16) :
    highestFirst 16 (wordOf bits).toNat = bits ++ List.replicate (16 - bits.length) false := by
  have hlen : (bits ++ List.replicate (16 - bits.length) false).reverse.length = 16 := by
    rw [List.length_reverse, List.length_append, List.length_replicate]
    omega
  have hlt := numberOf_lt (bits ++ List.replicate (16 - bits.length) false).reverse
  have hlow := lowestFirst_numberOf (bits ++ List.replicate (16 - bits.length) false).reverse 0
  rw [hlen] at hlt
  rw [hlen, Nat.mul_zero, Nat.add_zero] at hlow
  rw [wordOf, UInt16.toNat_ofNat_of_lt' hlt, highestFirst, hlow, List.reverse_reverse]

/-- Bits packed into words, the highest bit of a word first. The last word is filled up with zero
    bits. -/
def packWords (bits : List Bool) : List UInt16 :=
  if bits = [] then [] else wordOf (bits.take 16) :: packWords (bits.drop 16)
termination_by bits.length
decreasing_by
  rename_i hb
  have := List.length_pos_iff.2 hb
  simp only [List.length_drop]
  omega

theorem length_packWords (bits : List Bool) :
    (packWords bits).length = (bits.length + 15) / 16 := by
  induction bits using packWords.induct with
  | case1 => simp [packWords]
  | case2 bits hb ih =>
      have hpos := List.length_pos_iff.2 hb
      rw [packWords, if_neg hb, List.length_cons, ih, List.length_drop]
      omega

/-- All bits of words, in reading order. -/
def wordBits (words : List UInt16) : List Bool :=
  words.flatMap fun word => highestFirst 16 word.toNat

/-- **The bits of packed words start with the packed bits.** -/
theorem wordBits_packWords (bits : List Bool) :
    ∃ rest, wordBits (packWords bits) = bits ++ rest := by
  induction bits using packWords.induct with
  | case1 =>
      rw [packWords, if_pos rfl]
      exact ⟨[], rfl⟩
  | case2 bits hb ih =>
      obtain ⟨rest, hrest⟩ := ih
      have hword := highestFirst_wordOf (bits.take 16) (List.length_take_le 16 bits)
      rw [packWords, if_neg hb]
      show ∃ rest, highestFirst 16 (wordOf (bits.take 16)).toNat
        ++ wordBits (packWords (bits.drop 16)) = bits ++ rest
      rw [hword, hrest]
      by_cases hshort : bits.length ≤ 16
      · rw [List.take_of_length_le hshort, List.drop_eq_nil_of_le hshort, List.append_assoc]
        exact ⟨_, rfl⟩
      · have hfull : 16 - (bits.take 16).length = 0 := by
          rw [List.length_take]
          omega
        rw [hfull, List.replicate_zero, List.append_nil, ← List.append_assoc,
          List.take_append_drop]
        exact ⟨rest, rfl⟩

/-! ## 2. Words written backwards -/

/-- Words in the order in which they are read, written from the end to the start. -/
def writeWordsBackward (words : List UInt16) : Bytes :=
  words.reverse.flatMap Bytes.ofWord16

theorem writeWordsBackward_cons (word : UInt16) (words : List UInt16) :
    writeWordsBackward (word :: words) = writeWordsBackward words ++ Bytes.ofWord16 word := by
  simp [writeWordsBackward]

theorem length_writeWordsBackward (words : List UInt16) :
    (writeWordsBackward words).length = 2 * words.length := by
  induction words with
  | nil => rfl
  | cons word words ih =>
      rw [writeWordsBackward_cons, List.length_append, ih, List.length_cons, Bytes.length_ofWord16]
      omega

theorem wordsBackward_append (data : Bytes) (word : UInt16) :
    wordsBackward (data ++ Bytes.ofWord16 word) = word :: wordsBackward data := by
  rw [wordsBackward, List.reverse_append]
  show Bytes.word16 (word >>> 8).toUInt8 word.toUInt8 :: wordsOfReversed data.reverse = _
  rw [Bytes.word16_ofWord16]
  rfl

/-- **Words written backwards are read in their order.** -/
theorem wordsBackward_writeWordsBackward (words : List UInt16) :
    wordsBackward (writeWordsBackward words) = words := by
  induction words with
  | nil => rfl
  | cons word words ih => rw [writeWordsBackward_cons, wordsBackward_append, ih]

/-! ## 3. Shifts and masks -/

/-- The word of which the lowest bits are set. -/
def mask (width : Nat) : UInt32 :=
  1 <<< UInt32.ofNat width - 1

theorem toNat_and_mask {width : Nat} (h : width < 32) (buffer : UInt32) :
    (buffer &&& mask width).toNat = buffer.toNat % 2 ^ width := by
  rw [UInt32.toNat_and, mask, toNat_ones h, Nat.and_two_pow_sub_one_eq_mod]

/-- A buffer with a word below its bits. -/
def load (buffer : UInt32) (word : UInt16) : UInt32 :=
  buffer <<< 16 ||| word.toUInt32

/-- **Nothing is shifted out** of a buffer that holds less than 16 bits. -/
theorem toNat_load {count : Nat} {buffer : UInt32} (hc : count < 16) (hb : buffer.toNat < 2 ^ count)
    (word : UInt16) : (load buffer word).toNat = buffer.toNat * 2 ^ 16 + word.toNat := by
  have hbuffer : buffer.toNat < 2 ^ 16 :=
    Nat.lt_trans hb (Nat.pow_lt_pow_right (by decide) hc)
  have hword := word.toNat_lt
  have h16 : (16 : UInt32).toNat % 32 = 16 := rfl
  rw [load, UInt32.toNat_or, UInt32.toNat_shiftLeft, UInt16.toNat_toUInt32, h16,
    Nat.mod_eq_of_lt (by rw [Nat.shiftLeft_eq]; omega), ← Nat.shiftLeft_add_eq_or_of_lt hword,
    Nat.shiftLeft_eq]

/-! ## 4. Reading -/

/-- A buffer whose lowest `count` bits are still to be read, and the words that were not loaded
    yet. -/
structure Accumulator where
  buffer : UInt32
  count : Nat
  unread : List UInt16
  count_lt : count < 16
  buffer_lt : buffer.toNat < 2 ^ count

namespace Accumulator

/-- The bits that are still to be read. -/
def stream (a : Accumulator) : List Bool :=
  highestFirst a.count a.buffer.toNat ++ wordBits a.unread

/-- The highest `n` of `count` bits as a value, and the accumulator with the others. -/
def cut (buffer : UInt32) (count n : Nat) (unread : List UInt16) (h : count - n < 16) :
    UInt32 × Accumulator :=
  (buffer >>> UInt32.ofNat (count - n) &&& mask n,
    { buffer := buffer &&& mask (count - n)
      count := count - n
      unread := unread
      count_lt := h
      buffer_lt := by
        rw [toNat_and_mask (Nat.lt_trans h (by decide))]
        exact Nat.mod_lt _ (Nat.two_pow_pos _) })

/-- The value of the next `n` bits. One word is enough where too few bits are there. -/
def read (a : Accumulator) (n : Fin 17) : Option (UInt32 × Accumulator) :=
  if hn : n.val ≤ a.count then
    some (cut a.buffer a.count n a.unread (Nat.lt_of_le_of_lt (Nat.sub_le _ _) a.count_lt))
  else
    match a.unread with
    | [] => none
    | word :: unread =>
      some (cut (load a.buffer word) (a.count + 16) n unread (by omega))

/-- The value that is cut off and the bits left are the bits that were there. -/
theorem readBits_cut {exhausted : Error} {buffer : UInt32} {count n : Nat} (hn : n ≤ count)
    (hn32 : n < 32) (hb : buffer.toNat < 2 ^ count) (unread : List UInt16) (h : count - n < 16) :
    readBits exhausted n (highestFirst count buffer.toNat ++ wordBits unread)
      = .ok ((cut buffer count n unread h).1.toNat, (cut buffer count n unread h).2.stream) := by
  have hshift : count - n < 32 := Nat.lt_trans h (by decide)
  have hquotient : buffer.toNat / 2 ^ (count - n) < 2 ^ n := by
    rw [Nat.div_lt_iff_lt_mul (Nat.two_pow_pos _), ← Nat.pow_add, Nat.add_sub_cancel' hn]
    exact hb
  have hvalue : (cut buffer count n unread h).1.toNat = buffer.toNat / 2 ^ (count - n) := by
    show (buffer >>> UInt32.ofNat (count - n) &&& mask n).toNat = _
    rw [toNat_and_mask hn32, toNat_shiftRight hshift, Nat.mod_eq_of_lt hquotient]
  have hstream : (cut buffer count n unread h).2.stream
      = highestFirst (count - n) buffer.toNat ++ wordBits unread := by
    show highestFirst (count - n) (buffer &&& mask (count - n)).toNat ++ wordBits unread = _
    rw [toNat_and_mask hshift, highestFirst_mod]
  have hsplit := highestFirst_add n (count - n) buffer.toNat
  rw [Nat.add_sub_cancel' hn] at hsplit
  rw [hvalue, hstream, hsplit, List.append_assoc]
  exact readBits_eq_ok.2 ⟨hquotient, rfl⟩

/-- **A read takes the bits at the front of the stream**, and fails if there are too few. -/
theorem readBits_stream (exhausted : Error) (a : Accumulator) (n : Fin 17) :
    readBits exhausted n a.stream
      = (a.read n).elim (.error exhausted) fun (value, behind) =>
          .ok (value.toNat, behind.stream) := by
  have hcount := a.count_lt
  have hn32 : n.val < 32 := Nat.lt_trans n.isLt (by decide)
  unfold read
  by_cases hn : n.val ≤ a.count
  · rw [dif_pos hn]
    exact readBits_cut hn hn32 a.buffer_lt a.unread _
  · rw [dif_neg hn]
    cases hu : a.unread with
    | nil =>
        have hlen : a.stream.length = a.count := by
          rw [stream, hu, List.length_append, length_highestFirst]
          rfl
        exact readBits_of_short (by omega)
    | cons word unread =>
        have hload := toNat_load a.count_lt a.buffer_lt word
        have hlt : (load a.buffer word).toNat < 2 ^ (a.count + 16) := by
          have hb := a.buffer_lt
          have hw := word.toNat_lt
          rw [hload, Nat.pow_add]
          omega
        have hstream : a.stream
            = highestFirst (a.count + 16) (load a.buffer word).toNat ++ wordBits unread := by
          rw [hload, ← highestFirst_append word.toNat_lt, List.append_assoc, stream, hu]
          rfl
        rw [hstream]
        exact readBits_cut (by omega) hn32 hlt unread _

/-- The values of fields of the given widths, one behind the other. -/
def readAll : List (Fin 17) → Accumulator → Option (List Nat)
  | [], _ => some []
  | n :: widths, a =>
    match a.read n with
    | none => none
    | some (value, behind) => (readAll widths behind).map (value.toNat :: ·)

end Accumulator

/-- The values of fields at the front of a stream. -/
def readFields (exhausted : Error) : List (Fin 17) → List Bool → Except Error (List Nat)
  | [], _ => .ok []
  | n :: widths, bits => do
    let (value, bits) ← readBits exhausted n bits
    let values ← readFields exhausted widths bits
    .ok (value :: values)

namespace Accumulator

/-- **The accumulator is a queue of the bits of its stream**: fields of any widths up to 16 bits are
    read from it as from the list of the bits. -/
theorem readFields_stream (exhausted : Error) (widths : List (Fin 17)) (a : Accumulator) :
    readFields exhausted widths a.stream = (a.readAll widths).elim (.error exhausted) .ok := by
  induction widths generalizing a with
  | nil => rfl
  | cons n widths ih =>
      have hread := readBits_stream exhausted a n
      unfold readFields readAll
      cases hr : a.read n with
      | none =>
          rw [hr] at hread
          rw [hread]
          rfl
      | some result =>
          obtain ⟨value, behind⟩ := result
          rw [hr] at hread
          rw [hread]
          show (readFields exhausted widths behind.stream >>= _) = _
          rw [ih behind]
          dsimp only
          cases behind.readAll widths <;> rfl

/-! ## 5. The start -/

/-- The accumulator at the start, with the highest `lead` bits of the first word. -/
def start (lead : Fin 16) (first : UInt16) (words : List UInt16) : Accumulator where
  buffer := first.toUInt32 >>> UInt32.ofNat (16 - lead)
  count := lead
  unread := words
  count_lt := lead.isLt
  buffer_lt := by
    have hlead := lead.isLt
    have hfirst := first.toNat_lt
    rw [toNat_shiftRight (by omega), UInt16.toNat_toUInt32,
      Nat.div_lt_iff_lt_mul (Nat.two_pow_pos _), ← Nat.pow_add, Nat.add_sub_cancel' (by omega)]
    exact hfirst

/-- **The accumulator starts with the bits of the stream.** -/
theorem stream_start (lead : Fin 16) (first : UInt16) (words : List UInt16) :
    (start lead first words).stream = streamBits lead first words := by
  have hlead := lead.isLt
  have hsplit := highestFirst_add lead.val (16 - lead.val) first.toNat
  rw [Nat.add_sub_cancel' (Nat.le_of_lt hlead)] at hsplit
  show highestFirst lead (first.toUInt32 >>> UInt32.ofNat (16 - lead.val)).toNat
    ++ wordBits words = _
  rw [toNat_shiftRight (by omega), UInt16.toNat_toUInt32, streamBits, hsplit,
    List.take_left' (length_highestFirst _ _)]
  rfl

end Accumulator

end AmigaBinary.Decrunch.StoneCracker
