import AmigaBinary.Proofs.Decrunch.Squash.Acceptance

/-!
# What the checksum of a squashed file detects

All words of an accepted region but the size fold to zero, because the end of the stream is accepted
only if none of them was left out. So a file with the same header is rejected whenever the words
under the checksum differ from those of an accepted file by something other than zero, and in
particular when a single bit of them is flipped (`unsquash_detects`).
-/

namespace AmigaBinary.Decrunch.Squash

/-! ## 1. The words under the checksum -/

/-- All words of a region but the last one, which is the size. The last word is read first. -/
def coveredWords (packed : Bytes) : List UInt32 :=
  (longsBackward packed).tail

/-- The exclusive or of what the words of `packed` under the checksum differ by from those that
    stand in their place in another file. -/
def difference (packed other : Bytes) : UInt32 :=
  xorAll (List.zipWith (· ^^^ ·) (coveredWords packed)
    (coveredWords ((other.drop 12).take packed.length)))

theorem coveredWords_bytes (p : Packed) : coveredWords p.bytes = p.covered := by
  rw [coveredWords, Packed.longsBackward_bytes, List.tail_cons]

/-- An accepted region is whole words, and those under the checksum fold to zero. -/
theorem covered_of_ok {data out : Bytes} (h : unsquash data = .ok out) :
    ∃ (capacity : Nat) (p : Packed), region data = .ok (capacity, p.bytes) ∧
      xorAll p.covered = 0 := by
  obtain ⟨buffer, length, p, behind, tokens, spare, rfl, hlen, hs, rfl⟩ := unsquash_eq_ok.1 h
  exact ⟨buffer.toNat, p, region_eq_ok.2 ⟨buffer, length, behind, rfl, hlen, rfl⟩, hs.balanced⟩

theorem take_file (buffer length : UInt32) (packed behind : Bytes) :
    (file buffer length packed behind).take 12
      = magic ++ (Bytes.ofWord32 buffer ++ Bytes.ofWord32 length) := rfl

theorem drop_file (buffer length : UInt32) (packed behind : Bytes) :
    (file buffer length packed behind).drop 12 = packed ++ behind := rfl

/-- The region stands behind the header. -/
theorem eq_of_region {data packed : Bytes} {capacity : Nat}
    (h : region data = .ok (capacity, packed)) : (data.drop 12).take packed.length = packed := by
  obtain ⟨buffer, length, behind, rfl, hlen, rfl⟩ := region_eq_ok.1 h
  rw [drop_file, List.take_left]

/-- Under the same header the region has the same length. -/
theorem length_of_same_header {data other packed packed' : Bytes} {capacity capacity' : Nat}
    (h : region data = .ok (capacity, packed)) (h' : region other = .ok (capacity', packed'))
    (hd : other.take 12 = data.take 12) : packed'.length = packed.length := by
  obtain ⟨buffer, length, behind, rfl, hlen, rfl⟩ := region_eq_ok.1 h
  obtain ⟨buffer', length', behind', rfl, hlen', rfl⟩ := region_eq_ok.1 h'
  rw [take_file, take_file] at hd
  obtain ⟨-, hl⟩ := List.append_inj (List.append_cancel_left hd) rfl
  rw [hlen, hlen', Bytes.ofWord32_inj hl]

/-! ## 2. Changed bytes -/

theorem modify_append_left {front : Bytes} {i : Nat} (h : i < front.length) (back : Bytes)
    (f : UInt8 → UInt8) : (front ++ back).modify i f = front.modify i f ++ back := by
  rw [← List.take_append_drop front.length ((front ++ back).modify i f), List.take_modify,
    List.drop_modify_of_lt _ _ _ _ h, List.take_left, List.drop_left]

theorem modify_append_right {front : Bytes} {i : Nat} (h : front.length ≤ i) (back : Bytes)
    (f : UInt8 → UInt8) :
    (front ++ back).modify i f = front ++ back.modify (i - front.length) f := by
  rw [← List.take_append_drop front.length ((front ++ back).modify i f), List.take_modify,
    List.drop_modify_of_ge _ _ _ _ h, List.take_left, List.drop_left, List.modify_eq_self h]

/-- Another byte in a word makes another word. -/
theorem modify_ofWord32 (word : UInt32) {i : Nat} (h : i < 4) {f : UInt8 → UInt8}
    (hf : ∀ byte, f byte ≠ byte) :
    ∃ word', word' ≠ word ∧ (Bytes.ofWord32 word).modify i f = Bytes.ofWord32 word' := by
  have hlen : ((Bytes.ofWord32 word).modify i f).length = 4 := List.length_modify ..
  obtain ⟨word', he⟩ := Bytes.exists_ofWord32 hlen
  refine ⟨word', ?_, he⟩
  rintro rfl
  have hi := List.getElem_modify_eq f i (Bytes.ofWord32 word') (by rw [hlen]; exact h)
  simp only [he] at hi
  exact hf _ hi.symm

/-- Another byte in words makes another one of these words. -/
theorem modify_writeBackward (words : List UInt32) {i : Nat}
    (h : i < (writeBackward words).length) {f : UInt8 → UInt8} (hf : ∀ byte, f byte ≠ byte) :
    ∃ front word word' back, words = front ++ word :: back ∧ word' ≠ word ∧
      (writeBackward words).modify i f = writeBackward (front ++ word' :: back) := by
  induction words with
  | nil => simp [writeBackward] at h
  | cons word words ih =>
      rw [writeBackward_cons]
      rcases Nat.lt_or_ge i (writeBackward words).length with hl | hl
      · obtain ⟨front, w, w', back, rfl, hw, he⟩ := ih hl
        refine ⟨word :: front, w, w', back, rfl, hw, ?_⟩
        rw [modify_append_left hl, he, List.cons_append, writeBackward_cons]
      · rw [writeBackward_cons, List.length_append, Bytes.length_ofWord32] at h
        have hi : i - (writeBackward words).length < 4 := by omega
        obtain ⟨word', hw, he⟩ := modify_ofWord32 word hi hf
        refine ⟨[], word, word', words, rfl, hw, ?_⟩
        rw [modify_append_right hl, he, List.nil_append, writeBackward_cons]

/-- Another one of the words makes another exclusive or. -/
theorem xorAll_ne {front back : List UInt32} {word word' : UInt32} (h : word' ≠ word) :
    xorAll (front ++ word' :: back) ≠ xorAll (front ++ word :: back) := by
  rw [xorAll_append, xorAll_append, xorAll_cons, xorAll_cons]
  intro he
  exact h ((UInt32.xor_left_inj _).1 ((UInt32.xor_right_inj _).1 he))

/-! ## 3. What is detected -/

/-- The covered words of two accepted files with the same header differ by zero. -/
theorem difference_eq_zero {data other out out' : Bytes} (h : unsquash data = .ok out)
    (h' : unsquash other = .ok out') (hd : other.take 12 = data.take 12) {capacity : Nat}
    {packed : Bytes} (hr : region data = .ok (capacity, packed)) :
    difference packed other = 0 := by
  obtain ⟨c, p, hp, hsum⟩ := covered_of_ok h
  obtain ⟨rfl, rfl⟩ := Prod.mk.inj (Except.ok.inj (hr.symm.trans hp))
  obtain ⟨c', p', hp', hsum'⟩ := covered_of_ok h'
  have hlen := length_of_same_header hp hp' hd
  have hwords : p.covered.length = p'.covered.length := by
    rw [Packed.length_bytes, Packed.length_bytes] at hlen
    simp only [Packed.covered, List.length_cons]
    omega
  rw [difference, ← hlen, eq_of_region hp', coveredWords_bytes, coveredWords_bytes,
    xorAll_zipWith hwords, hsum, hsum', UInt32.xor_self]

/-- A header is what it was after a change behind it. -/
theorem take_modify_behind {data : Bytes} {position : Nat} (h : 12 ≤ position) (f : UInt8 → UInt8) :
    (data.modify position f).take 12 = data.take 12 := by
  rw [List.take_modify]
  exact List.modify_eq_self (Nat.le_trans (List.length_take_le ..) h)

/-- **A change of one byte under the checksum shows in the exclusive or** of the differences. -/
theorem difference_modify_ne_zero {data : Bytes} {capacity : Nat} {p : Packed}
    (hr : region data = .ok (capacity, p.bytes)) {position : Nat} (hlo : 12 ≤ position)
    (hhi : position + 4 < 12 + p.bytes.length) {f : UInt8 → UInt8} (hf : ∀ byte, f byte ≠ byte) :
    difference p.bytes (data.modify position f) ≠ 0 := by
  have hlen := p.length_bytes_covered
  have hi : position - 12 < (writeBackward p.covered).length := by omega
  obtain ⟨front, word, word', back, hwords, hne, he⟩ := modify_writeBackward p.covered hi hf
  have hbytes : ((data.modify position f).drop 12).take p.bytes.length
      = writeBackward (front ++ word' :: back) ++ Bytes.ofWord32 p.size := by
    rw [List.drop_modify_of_ge _ _ _ _ hlo, List.take_modify, eq_of_region hr, Packed.bytes_eq,
      modify_append_left hi, he]
  rw [difference, hbytes, coveredWords_bytes, coveredWords, longsBackward_append, List.tail_cons,
    longsBackward_writeBackward, hwords, xorAll_zipWith (by simp)]
  intro h0
  exact xorAll_ne hne (UInt32.xor_eq_zero_iff.1 h0).symm

/-- **The checksum of an accepted file.** Its region is whole words, and all of them but the size
    fold to zero. A file with the same header whose words under the checksum differ by something
    else than zero is rejected, and so is the file itself with some bits of one of these bytes
    flipped. -/
theorem unsquash_detects {data out : Bytes} (h : unsquash data = .ok out) :
    ∃ (capacity : Nat) (packed : Bytes), region data = .ok (capacity, packed) ∧
      packed.length % 4 = 0 ∧ xorAll (coveredWords packed) = 0 ∧
      (∀ other : Bytes, other.take 12 = data.take 12 → difference packed other ≠ 0 →
        ∃ e, unsquash other = .error e) ∧
      ∀ (position : Nat) (mask : UInt8), 12 ≤ position → position + 4 < 12 + packed.length →
        mask ≠ 0 → ∃ e, unsquash (data.modify position (· ^^^ mask)) = .error e := by
  obtain ⟨capacity, p, hr, hsum⟩ := covered_of_ok h
  have hdetects (other : Bytes) (hd : other.take 12 = data.take 12)
      (hne : difference p.bytes other ≠ 0) : ∃ e, unsquash other = .error e :=
    exists_error fun _ ho => hne (difference_eq_zero h ho hd hr)
  refine ⟨capacity, p.bytes, hr, ?_, ?_, hdetects, ?_⟩
  · rw [Packed.length_bytes]
    omega
  · rw [coveredWords_bytes, hsum]
  · intro position mask hlo hhi hmask
    have hf : ∀ byte : UInt8, byte ^^^ mask ≠ byte := fun byte he =>
      hmask ((UInt8.xor_right_inj byte).1 (he.trans UInt8.xor_zero.symm))
    exact hdetects _ (take_modify_behind hlo _) (difference_modify_ne_zero hr hlo hhi hf)

/-- The packed "abracadabra" is accepted and has its checksum. It is rejected with one bit of its
    first word flipped, and with two words changed. -/
theorem unsquash_detects_abracadabra :
    unsquash (file 16 20 abracadabra.bytes []) = .ok (Bytes.ascii "abracadabra") ∧
    region (file 16 20 abracadabra.bytes []) = .ok (16, abracadabra.bytes) ∧
    abracadabra.bytes.length % 4 = 0 ∧ xorAll (coveredWords abracadabra.bytes) = 0 ∧
    (∃ e, unsquash ((file 16 20 abracadabra.bytes []).modify 12 (· ^^^ 0x10)) = .error e) ∧
    ∃ e, unsquash (file 16 20
      ({ abracadabra with seed := 1, words := [875704948, 2] } : Packed).bytes []) = .error e := by
  obtain ⟨capacity, packed, hr, hwhole, hsum, hwords, hflip⟩ :=
    unsquash_detects unsquash_abracadabra
  have hregion : region (file 16 20 abracadabra.bytes []) = .ok (16, abracadabra.bytes) := by decide
  obtain ⟨-, rfl⟩ := Prod.mk.inj (Except.ok.inj (hr.symm.trans hregion))
  exact ⟨unsquash_abracadabra, hregion, hwhole, hsum,
    hflip 12 0x10 (by decide) (by decide) (by decide), hwords _ (by decide) (by decide)⟩

end AmigaBinary.Decrunch.Squash
