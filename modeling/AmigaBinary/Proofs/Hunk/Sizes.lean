import AmigaBinary.Hunk.Write
import AmigaBinary.Proofs.Cursor

/-!
# The table of segment sizes

An entry is a number of longwords and two bits for the memory, so a word is the entry that it is
read as (`toWord_ofWord`), and an entry that is written is read with its length rounded down to a
multiple of four (`ofWord_toWord`). The table is read where it is written (`readSizes_eq_ok`).
-/

namespace AmigaBinary

namespace MemoryType

theorem bits_lt (memory : MemoryType) : memory.bits < 4 := by
  cases memory <;> decide

theorem ofBits_bits (memory : MemoryType) : ofBits memory.bits = memory := by
  cases memory <;> rfl

theorem bits_ofBits {n : Nat} (h : n < 4) : (ofBits n).bits = n :=
  match n, h with
  | 0, _ | 1, _ | 2, _ | 3, _ => rfl

end MemoryType

namespace SegmentSize

/-! ## 1. Entries -/

/-- The entry with its length rounded down to a multiple of four. -/
def rounded (size : SegmentSize) : SegmentSize :=
  { size with length := size.length / 4 * 4 }

theorem and_lengthMask (n : Nat) : n &&& 0x3FFFFFFF = n % 0x40000000 :=
  Nat.and_two_pow_sub_one_eq_mod n 30

theorem toNat_toWord (size : SegmentSize) :
    size.toWord.toNat = 0x40000000 * size.memory.bits + size.length.toNat / 4 := by
  have hlt := size.length.toNat_lt
  have hm := size.memory.bits_lt
  have hlow : ((size.length / 4).land 0x3FFFFFFF).toNat = size.length.toNat / 4 := by
    show (size.length / 4).toNat &&& 0x3FFFFFFF = _
    rw [and_lengthMask, UInt32.toNat_div]
    exact Nat.mod_eq_of_lt (by show size.length.toNat / 4 < 0x40000000; omega)
  have hbits : (UInt32.ofNat size.memory.bits).toNat = size.memory.bits :=
    UInt32.toNat_ofNat_of_lt' (Nat.lt_trans hm (by decide))
  have hhigh : (UInt32.ofNat size.memory.bits <<< 30).toNat = size.memory.bits <<< 30 := by
    have hfits : size.memory.bits <<< 30 < 0x100000000 := by
      rw [Nat.shiftLeft_eq]
      omega
    rw [UInt32.toNat_shiftLeft, hbits]
    exact Nat.mod_eq_of_lt hfits
  rw [toWord, UInt32.toNat_or, hlow, hhigh, Nat.or_comm,
    ← Nat.shiftLeft_add_eq_or_of_lt (show size.length.toNat / 4 < 0x40000000 by omega),
    Nat.shiftLeft_eq, Nat.mul_comm]

theorem length_ofWord (word : UInt32) :
    (ofWord word).length.toNat = word.toNat % 0x40000000 * 4 := by
  have hlow : (word &&& 0x3FFFFFFF).toNat = word.toNat % 0x40000000 := and_lengthMask word.toNat
  show ((word &&& 0x3FFFFFFF) * 4).toNat = _
  rw [UInt32.toNat_mul, hlow]
  exact Nat.mod_eq_of_lt (by show word.toNat % 0x40000000 * 4 < 0x100000000; omega)

theorem memory_ofWord (word : UInt32) :
    (ofWord word).memory = MemoryType.ofBits (word.toNat / 0x40000000) := by
  have hhigh : (word >>> 30).toNat = word.toNat / 0x40000000 := by
    rw [UInt32.toNat_shiftRight]
    exact Nat.shiftRight_eq_div_pow _ 30
  show MemoryType.ofBits (word >>> 30).toNat = _
  rw [hhigh]

/-- **A word of the table is the entry that it is read as.** -/
theorem toWord_ofWord (word : UInt32) : (ofWord word).toWord = word := by
  have hlt := word.toNat_lt
  apply UInt32.toNat_inj.1
  rw [toNat_toWord, length_ofWord, memory_ofWord, MemoryType.bits_ofBits (by omega)]
  omega

/-- **An entry that is written is read rounded.** -/
theorem ofWord_toWord (size : SegmentSize) : ofWord size.toWord = size.rounded := by
  have hlt := size.length.toNat_lt
  have hm := size.memory.bits_lt
  have hlength : (ofWord size.toWord).length = size.rounded.length := by
    apply UInt32.toNat_inj.1
    have hrounded : (size.length / 4 * 4).toNat = size.length.toNat / 4 * 4 := by
      rw [UInt32.toNat_mul, UInt32.toNat_div]
      exact Nat.mod_eq_of_lt (by show size.length.toNat / 4 * 4 < 0x100000000; omega)
    show _ = (size.length / 4 * 4).toNat
    rw [length_ofWord, toNat_toWord, hrounded]
    omega
  have hmemory : (ofWord size.toWord).memory = size.rounded.memory := by
    have hbits : (0x40000000 * size.memory.bits + size.length.toNat / 4) / 0x40000000
        = size.memory.bits := by
      omega
    rw [memory_ofWord, toNat_toWord, hbits]
    exact MemoryType.ofBits_bits size.memory
  cases h : ofWord size.toWord
  rw [h] at hlength hmemory
  dsimp only at hlength hmemory
  rw [hlength, hmemory]

theorem rounded_ofWord (word : UInt32) : (ofWord word).rounded = ofWord word := by
  rw [← ofWord_toWord, toWord_ofWord]

end SegmentSize

/-! ## 2. The table -/

theorem HunkFile.readSizes_eq_ok {count : Nat} {c next : Cursor} {sizes : List SegmentSize} :
    HunkFile.readSizes count c = .ok (sizes, next) ↔
      ∃ words : List UInt32, words.length = count ∧ words.map .ofWord = sizes ∧
        c.Reads (words.flatMap Bytes.ofWord32) next := by
  induction count generalizing c sizes with
  | zero =>
      rw [readSizes]
      constructor
      · intro h
        obtain ⟨rfl, rfl⟩ := Prod.mk.inj (Except.ok.inj h)
        exact ⟨[], rfl, rfl, Cursor.reads_nil.2 rfl⟩
      · rintro ⟨words, hlen, rfl, hr⟩
        obtain rfl := List.length_eq_zero_iff.1 hlen
        rw [Cursor.reads_nil.1 hr]
        rfl
  | succ count ih =>
      rw [readSizes, Cursor.word32_bind_eq_ok]
      constructor
      · rintro ⟨word, d, hw, h⟩
        obtain ⟨⟨sizes', d'⟩, hs, h⟩ := bind_eq_ok.1 h
        obtain ⟨rfl, rfl⟩ := Prod.mk.inj (Except.ok.inj h)
        obtain ⟨words, hlen, rfl, hr⟩ := ih.1 hs
        exact ⟨word :: words, congrArg Nat.succ hlen, rfl, hw.trans hr⟩
      · rintro ⟨words, hlen, rfl, hr⟩
        cases words with
        | nil => cases hlen
        | cons word words =>
            rw [List.flatMap_cons] at hr
            obtain ⟨d, hw, hr⟩ := Cursor.reads_append.1 hr
            have hs := ih.2 ⟨words, Nat.succ.inj hlen, rfl, hr⟩
            exact ⟨word, d, hw, bind_eq_ok.2 ⟨_, hs, rfl⟩⟩

end AmigaBinary
