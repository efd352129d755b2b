import AmigaBinary.Bytes

/-!
# Words and their bytes

A word made of bytes reads as a number in base 256 (`toNat_word16`, `toNat_long`, `toNat_word32`),
so it has the bytes that it was made of and no other word has them (`ofWord16_word16`,
`word16_ofWord16` and the same for 32 bits). A word in two's complement reads back as the number it
was made from (`signed16_ofInt`). A read at an offset answers with what stands there
(`readWord16_eq_ok`, `readWord32_eq_ok`, `readSlice_eq_ok`).
-/

namespace AmigaBinary.Bytes

/-! ## 1. Words as numbers -/

theorem toNat_word16 (high low : UInt8) :
    (word16 high low).toNat = 0x100 * high.toNat + low.toNat := by
  have hh := high.toNat_lt
  have hl := low.toNat_lt
  have h8 : (8 : UInt16).toNat % 16 = 8 := rfl
  simp only [word16, UInt16.toNat_or, UInt16.toNat_shiftLeft, UInt8.toNat_toUInt16]
  rw [h8, Nat.mod_eq_of_lt (by rw [Nat.shiftLeft_eq]; omega),
    ← Nat.shiftLeft_add_eq_or_of_lt hl, Nat.shiftLeft_eq, Nat.mul_comm]

theorem toNat_long (high low : UInt16) :
    (long high low).toNat = 0x10000 * high.toNat + low.toNat := by
  have hh := high.toNat_lt
  have hl := low.toNat_lt
  have h16 : (16 : UInt32).toNat % 32 = 16 := rfl
  simp only [long, UInt32.toNat_or, UInt32.toNat_shiftLeft, UInt16.toNat_toUInt32]
  rw [h16, Nat.mod_eq_of_lt (by rw [Nat.shiftLeft_eq]; omega),
    ← Nat.shiftLeft_add_eq_or_of_lt hl, Nat.shiftLeft_eq, Nat.mul_comm]

theorem toNat_word32 (a b c d : UInt8) :
    (word32 a b c d).toNat
      = 0x1000000 * a.toNat + 0x10000 * b.toNat + 0x100 * c.toNat + d.toNat := by
  rw [word32, toNat_long, toNat_word16, toNat_word16]
  omega

/-! ## 2. Words and their bytes -/

theorem toNat_high (w : UInt16) : (w >>> 8).toUInt8.toNat = w.toNat / 0x100 := by
  have h := w.toNat_lt
  have h8 : (8 : UInt16).toNat % 16 = 8 := rfl
  rw [UInt16.toNat_toUInt8, UInt16.toNat_shiftRight, h8, Nat.shiftRight_eq_div_pow]
  omega

theorem toNat_low (w : UInt16) : w.toUInt8.toNat = w.toNat % 0x100 :=
  UInt16.toNat_toUInt8 w

theorem toNat_highHalf (w : UInt32) : (w >>> 16).toUInt16.toNat = w.toNat / 0x10000 := by
  have h := w.toNat_lt
  have h16 : (16 : UInt32).toNat % 32 = 16 := rfl
  rw [UInt32.toNat_toUInt16, UInt32.toNat_shiftRight, h16, Nat.shiftRight_eq_div_pow]
  omega

/-- **The bytes of a word make this word.** -/
theorem word16_ofWord16 (w : UInt16) : word16 (w >>> 8).toUInt8 w.toUInt8 = w := by
  apply UInt16.toNat_inj.1
  rw [toNat_word16, toNat_high, toNat_low]
  omega

/-- A word has the bytes it was made of. -/
theorem ofWord16_word16 (high low : UInt8) : ofWord16 (word16 high low) = [high, low] := by
  have hl := low.toNat_lt
  have e1 : (word16 high low >>> 8).toUInt8 = high := by
    apply UInt8.toNat_inj.1
    rw [toNat_high, toNat_word16]
    omega
  have e2 : (word16 high low).toUInt8 = low := by
    apply UInt8.toNat_inj.1
    rw [toNat_low, toNat_word16]
    omega
  rw [ofWord16, e1, e2]

theorem long_ofWord32 (w : UInt32) : long (w >>> 16).toUInt16 w.toUInt16 = w := by
  apply UInt32.toNat_inj.1
  rw [toNat_long, toNat_highHalf, UInt32.toNat_toUInt16]
  omega

/-- A word of 32 bits has the bytes it was made of. -/
theorem ofWord32_word32 (a b c d : UInt8) : ofWord32 (word32 a b c d) = [a, b, c, d] := by
  have hc := (word16 c d).toNat_lt
  have e1 : (word32 a b c d >>> 16).toUInt16 = word16 a b := by
    apply UInt16.toNat_inj.1
    rw [toNat_highHalf, word32, toNat_long]
    omega
  have e2 : (word32 a b c d).toUInt16 = word16 c d := by
    apply UInt16.toNat_inj.1
    rw [UInt32.toNat_toUInt16, word32, toNat_long]
    omega
  rw [ofWord32, e1, e2, ofWord16_word16, ofWord16_word16]
  rfl

/-- Any four bytes are those of a word. -/
theorem exists_ofWord32 {bytes : Bytes} (h : bytes.length = 4) : ∃ w, bytes = ofWord32 w :=
  match bytes, h with
  | [a, b, c, d], _ => ⟨word32 a b c d, (ofWord32_word32 a b c d).symm⟩

@[simp] theorem length_ofWord16 (w : UInt16) : (ofWord16 w).length = 2 := rfl

@[simp] theorem length_ofWord32 (w : UInt32) : (ofWord32 w).length = 4 := rfl

theorem length_flatMap_ofWord16 (words : List UInt16) :
    (words.flatMap ofWord16).length = 2 * words.length := by
  induction words with
  | nil => rfl
  | cons w words ih =>
      rw [List.flatMap_cons, List.length_append, length_ofWord16, ih, List.length_cons]
      omega

/-- What holds of all numbers below a bound holds of a byte below it. -/
theorem of_lt {p : UInt8 → Prop} {n : Nat} (h : ∀ i : Fin n, p (UInt8.ofNat i)) {byte : UInt8}
    (hb : byte.toNat < n) : p byte := by
  have hbyte := h ⟨byte.toNat, hb⟩
  rw [UInt8.ofNat_toNat] at hbyte
  exact hbyte

/-! ## 3. Two's complement -/

/-- **A number that fits 16 bits is the signed reading of its word.** -/
theorem signed16_ofInt {z : Int} (hlo : -0x8000 ≤ z) (hhi : z < 0x8000) :
    signed16 (UInt16.ofNat (z % 0x10000).toNat) = z := by
  have hw : (UInt16.ofNat (z % 0x10000).toNat).toNat = (z % 0x10000).toNat := by
    rw [UInt16.toNat_ofNat']
    omega
  rw [signed16, hw]
  split <;> omega

/-! ## 4. Reads at an offset -/

theorem word32_ofWord32 (w : UInt32) :
    word32 ((w >>> 16).toUInt16 >>> 8).toUInt8 (w >>> 16).toUInt16.toUInt8
      (w.toUInt16 >>> 8).toUInt8 w.toUInt16.toUInt8 = w := by
  rw [word32, word16_ofWord16, word16_ofWord16, long_ofWord32]

/-- Words with the same bytes are the same. -/
theorem ofWord32_inj {v w : UInt32} (h : ofWord32 v = ofWord32 w) : v = w := by
  simp only [ofWord32, ofWord16, List.cons_append, List.nil_append, List.cons.injEq, and_true] at h
  obtain ⟨ha, hb, hc, hd⟩ := h
  rw [← word32_ofWord32 v, ha, hb, hc, hd, word32_ofWord32]

/-- Data that starts with words starts with the same word if it is the same. -/
theorem append_ofWord32_inj {v w : UInt32} {rest rest' : Bytes}
    (h : ofWord32 v ++ rest = ofWord32 w ++ rest') : v = w ∧ rest = rest' := by
  obtain ⟨hword, hrest⟩ := List.append_inj h (by rw [length_ofWord32, length_ofWord32])
  exact ⟨ofWord32_inj hword, hrest⟩

/-- What stands behind a part of the data. -/
theorem drop_behind {data front rest : Bytes} {offset : Nat}
    (h : data.drop offset = front ++ rest) : data.drop (offset + front.length) = rest := by
  rw [← List.drop_drop, h, List.drop_left]

/-- What stands in front of an offset stands in all data that is the same up to there. -/
theorem drop_of_take_eq {data other part rest : Bytes} {offset limit : Nat}
    (hfront : other.take limit = data.take limit) (h : data.drop offset = part ++ rest)
    (hle : offset + part.length ≤ limit) : ∃ rest', other.drop offset = part ++ rest' := by
  have htake : ∀ d : Bytes, (d.drop offset).take part.length
      = ((d.take limit).drop offset).take part.length := by
    intro d
    rw [List.drop_take, List.take_take, Nat.min_eq_left (by omega)]
  have hpart : (other.drop offset).take part.length = part := by
    rw [htake, hfront, ← htake, h, List.take_left]
  have hsplit := List.take_append_drop part.length (other.drop offset)
  rw [hpart] at hsplit
  exact ⟨_, hsplit.symm⟩

/-- A short word is read where its bytes stand. -/
theorem readWord16_eq_ok {data : Bytes} {offset : Nat} {w : UInt16} :
    readWord16 data offset = .ok w ↔ ∃ rest, data.drop offset = ofWord16 w ++ rest := by
  unfold readWord16
  constructor
  · intro h
    split at h
    · rename_i a b rest hd
      obtain rfl := Except.ok.inj h
      exact ⟨rest, by rw [hd, ofWord16_word16]; rfl⟩
    · cases h
  · rintro ⟨rest, hd⟩
    rw [hd]
    exact congrArg Except.ok (word16_ofWord16 w)

/-- A short word is read wherever there is data for it. -/
theorem exists_readWord16 {data : Bytes} {offset : Nat} (h : offset + 2 ≤ data.length) :
    ∃ w, readWord16 data offset = .ok w := by
  have hlength : (data.drop offset).length = data.length - offset := List.length_drop
  unfold readWord16
  match data.drop offset, hlength with
  | a :: b :: _, _ => exact ⟨word16 a b, rfl⟩
  | [_], hlength => exact absurd hlength (by rw [List.length_singleton]; omega)
  | [], hlength => exact absurd hlength (by rw [List.length_nil]; omega)

/-- A word is read where its bytes stand. -/
theorem readWord32_eq_ok {data : Bytes} {offset : Nat} {w : UInt32} :
    readWord32 data offset = .ok w ↔ ∃ rest, data.drop offset = ofWord32 w ++ rest := by
  unfold readWord32
  constructor
  · intro h
    split at h
    · rename_i a b c d rest hd
      obtain rfl := Except.ok.inj h
      exact ⟨rest, by rw [hd, ofWord32_word32]; rfl⟩
    · cases h
  · rintro ⟨rest, hd⟩
    rw [hd]
    exact congrArg Except.ok (word32_ofWord32 w)

/-- A word is read wherever there is data for it. -/
theorem exists_readWord32 {data : Bytes} {offset : Nat} (h : offset + 4 ≤ data.length) :
    ∃ w, readWord32 data offset = .ok w := by
  have hlength : ((data.drop offset).take 4).length = 4 := by
    rw [List.length_take, List.length_drop]
    omega
  obtain ⟨w, hw⟩ := exists_ofWord32 hlength
  refine ⟨w, readWord32_eq_ok.2 ⟨(data.drop offset).drop 4, ?_⟩⟩
  rw [← hw, List.take_append_drop]

/-- A short word is read only where there is data for it. -/
theorem end_le_of_readWord16 {data : Bytes} {offset : Nat} {w : UInt16}
    (h : readWord16 data offset = .ok w) : offset + 2 ≤ data.length := by
  obtain ⟨rest, hrest⟩ := readWord16_eq_ok.1 h
  have hlength := congrArg List.length hrest
  rw [List.length_drop, List.length_append, length_ofWord16] at hlength
  omega

/-- A word is read only where there is data for it. -/
theorem end_le_of_readWord32 {data : Bytes} {offset : Nat} {w : UInt32}
    (h : readWord32 data offset = .ok w) : offset + 4 ≤ data.length := by
  obtain ⟨rest, hrest⟩ := readWord32_eq_ok.1 h
  have hlength := congrArg List.length hrest
  rw [List.length_drop, List.length_append, length_ofWord32] at hlength
  omega

theorem readSlice_eq_ok {data slice : Bytes} {offset length : Nat} :
    readSlice data offset length = .ok slice ↔
      offset ≤ data.length ∧ slice.length = length ∧ ∃ rest, data.drop offset = slice ++ rest := by
  unfold readSlice
  split
  · rename_i hl
    rw [Except.ok.injEq]
    constructor
    · rintro rfl
      refine ⟨by omega, ?_, _, (List.take_append_drop length _).symm⟩
      rw [List.length_take, List.length_drop]
      omega
    · rintro ⟨-, rfl, rest, hd⟩
      rw [hd, List.take_left]
  · rename_i hl
    constructor
    · intro h
      cases h
    · rintro ⟨ho, rfl, rest, hd⟩
      have := congrArg List.length hd
      rw [List.length_drop, List.length_append] at this
      omega

/-- A slice up to the end of the data is all that stands behind its start. -/
theorem readSlice_to_end {data slice : Bytes} {offset : Nat} :
    readSlice data offset (data.length - offset) = .ok slice ↔
      offset ≤ data.length ∧ data.drop offset = slice := by
  rw [readSlice]
  split
  · rename_i hle
    rw [List.take_of_length_le (Nat.le_of_eq List.length_drop), Except.ok.injEq]
    exact (and_iff_right (by omega)).symm
  · rename_i hle
    constructor
    · intro h
      cases h
    · rintro ⟨hoffset, -⟩
      omega

end AmigaBinary.Bytes
