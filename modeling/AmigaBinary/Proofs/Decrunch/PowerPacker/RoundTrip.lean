import AmigaBinary.Proofs.Decrunch.PowerPacker.Token
import AmigaBinary.Proofs.Decrunch.PowerPacker.Window

/-!
# Packing and unpacking

A stream is packed by writing its bits into words behind the bits that are skipped, and the length
of its output above their number (`pack`). Whatever words stand in front of the packed data, its
output is what the stream stands for (`unpack_pack`), as long as the copies name bytes that have
been produced before.
-/

namespace AmigaBinary.Decrunch.PowerPacker

/-! ## 1. Packing -/

/-- The last word of packed data. -/
def trailer (skip length : Nat) : UInt32 :=
  UInt32.ofNat (0x100 * length + skip)

/-- The first word of bits: those that are skipped, then the first ones of the stream. -/
def firstWord (skipped bits : List Bool) : UInt32 :=
  UInt32.ofNat (numberOf (skipped ++ bits.take (32 - skipped.length)))

/-- The words behind the first one. -/
def moreWords (skipped bits : List Bool) : List UInt32 :=
  packLongs (bits.drop (32 - skipped.length))

/-- The packed data of a stream. -/
def pack (table : OffsetTable) (skipped : List Bool) (s : Stream) : Bytes :=
  let bits := s.bits table
  writeBackward
    (trailer skipped.length s.length :: firstWord skipped bits :: moreWords skipped bits)

/-- Every copy of a stream fits its table, and names a byte that is there when it is made. -/
structure Stream.Valid (table : OffsetTable) (s : Stream) : Prop where
  copies : ∀ r ∈ s.rounds, r.copy.Valid table
  produced : CopiesProduced 0 s.rounds

/-! ## 2. The bits of packed data -/

/-- The bits that the first word holds are those put into it, and zero bits above them. -/
theorem drop_firstWord {skipped : List Bool} (h : skipped.length < 32) (bits : List Bool) :
    (lowestFirst 32 (firstWord skipped bits).toNat).drop skipped.length
      = bits.take (32 - skipped.length)
        ++ List.replicate (32 - skipped.length - bits.length) false := by
  have hlen : (skipped ++ bits.take (32 - skipped.length)).length ≤ 32 := by
    rw [List.length_append, List.length_take]
    omega
  have hlt : numberOf (skipped ++ bits.take (32 - skipped.length)) < 2 ^ 32 :=
    Nat.lt_of_lt_of_le (numberOf_lt _) (Nat.pow_le_pow_right (by decide) hlen)
  have hfull : (skipped ++ bits.take (32 - skipped.length)
      ++ List.replicate (32 - skipped.length - bits.length) false).length = 32 := by
    rw [List.length_append, List.length_append, List.length_take, List.length_replicate]
    omega
  have hlow := lowestFirst_numberOf (skipped ++ bits.take (32 - skipped.length)
    ++ List.replicate (32 - skipped.length - bits.length) false) 0
  rw [hfull, Nat.mul_zero, Nat.add_zero, numberOf_append_zeros] at hlow
  rw [firstWord, UInt32.toNat_ofNat_of_lt' hlt, hlow, List.append_assoc, List.drop_left]

/-- **The bits of packed data are those of the stream**, with other bits behind them. -/
theorem streamBits_pack {skipped : List Bool} (h : skipped.length < 32) (bits : List Bool)
    (more : List UInt32) :
    ∃ rest, streamBits skipped.length (firstWord skipped bits) (moreWords skipped bits ++ more)
      = bits ++ rest := by
  have hmore : ((moreWords skipped bits ++ more).flatMap fun word => lowestFirst 32 word.toNat)
      = longBits (moreWords skipped bits) ++ longBits more := List.flatMap_append
  rw [streamBits, drop_firstWord h, hmore, moreWords, longBits_packLongs]
  by_cases hshort : bits.length ≤ 32 - skipped.length
  · rw [List.take_of_length_le hshort, List.drop_eq_nil_of_le hshort, List.nil_append,
      List.append_assoc]
    exact ⟨_, rfl⟩
  · have hfull : 32 - skipped.length - bits.length = 0 := by omega
    rw [hfull, List.replicate_zero, List.append_nil, List.append_assoc, ← List.append_assoc,
      List.take_append_drop]
    exact ⟨_, rfl⟩

theorem toNat_trailer {skip length : Nat} (hs : skip < 32) (hl : length < 2 ^ 24) :
    (trailer skip length).toNat = 0x100 * length + skip :=
  UInt32.toNat_ofNat_of_lt' (by simp only [UInt32.size]; omega)

/-- **Packed data has whole words**, and not too many of them. -/
theorem length_pack {table : OffsetTable} (skipped : List Bool) {s : Stream}
    (hv : ∀ r ∈ s.rounds, r.copy.Valid table) :
    (pack table skipped s).length % 4 = 0 ∧
      (pack table skipped s).length ≤ 4 * (300 * s.length / 32 + 3) := by
  have hbits := s.length_bits_le hv
  rw [pack, length_writeBackward, List.length_cons, List.length_cons, moreWords, length_packLongs,
    List.length_drop]
  omega

/-! ## 3. The round trip -/

/-- Packed data whose bits start with those of a stream is unpacked to what the stream stands for.
    -/
theorem unpack_of_bits {table : OffsetTable} {skip : Nat} {s : Stream} {packed : Bytes}
    {first : UInt32} {words : List UInt32} {rest : List Bool} (hskip : skip < 32)
    (hv : s.Valid table) (hlength : s.length < 2 ^ 24) (hwhole : packed.length % 4 = 0)
    (hwords : longsBackward packed = trailer skip s.length :: first :: words)
    (hbits : streamBits skip first words = s.bits table ++ rest) :
    unpack table packed = .ok s.denote := by
  have htrailer := toNat_trailer hskip hlength
  have hs : (trailer skip s.length).toNat % 0x100 = skip := by omega
  have hl : (trailer skip s.length).toNat / 0x100 = s.length := by omega
  have hmax : s.length ≤ maxLength := by
    rw [maxLength]
    omega
  have hrun := expand_bits hmax rest s (.empty s.length) hv.copies hv.produced rfl rfl
  unfold unpack
  rw [if_neg (not_not.2 hwhole), hwords]
  dsimp only
  rw [hs, if_neg (by omega), hl, hbits]
  exact map_eq_ok.2 ⟨_, hrun, rfl⟩

/-- Words in front of packed data are not read. -/
theorem unpack_behind {table : OffsetTable} {skipped : List Bool} {s : Stream}
    (hskip : skipped.length < 32) (hv : s.Valid table) (hlength : s.length < 2 ^ 24)
    (front : List UInt32) :
    unpack table (front.flatMap Bytes.ofWord32 ++ pack table skipped s) = .ok s.denote := by
  have hfront : front.flatMap Bytes.ofWord32 = writeBackward front.reverse := by
    rw [writeBackward, List.reverse_reverse]
  obtain ⟨rest, hbits⟩ := streamBits_pack hskip (s.bits table) front.reverse
  refine unpack_of_bits hskip hv hlength ?_ ?_ hbits
  · rw [hfront, pack, List.length_append, length_writeBackward, length_writeBackward]
    omega
  · rw [hfront, pack, longsBackward_append_writeBackward, longsBackward_writeBackward]
    rfl

/-- **A packed stream is unpacked to what it stands for**: with any bits skipped, any whole words in
    front, copies of all shapes and runs of any length. The window gives the bits of the stream in
    their order. -/
theorem unpack_pack {table : OffsetTable} {skipped : List Bool} {s : Stream}
    (hskip : skipped.length < 32) (hv : s.Valid table) (hlength : s.length < 2 ^ 24)
    (front : List UInt32) :
    unpack table (front.flatMap Bytes.ofWord32 ++ pack table skipped s) = .ok s.denote ∧
      s.denote.length = s.length ∧
      ∃ behind, (Window.start skipped.length (firstWord skipped (s.bits table))
        (moreWords skipped (s.bits table))).take (s.bits table).length
          = some (s.bits table, behind) := by
  obtain ⟨rest, hbits⟩ := streamBits_pack hskip (s.bits table) []
  rw [List.append_nil, ← Window.stream_start hskip] at hbits
  obtain ⟨behind, htake, -⟩ := Window.take_of_stream hbits
  exact ⟨unpack_behind hskip hv hlength front, Stream.length_apply s [], behind, htake⟩

/-- Rounds of all shapes, with and without literal bytes, and a run behind them. The longer copies
    repeat bytes that they have just written, and need more than one group for their lengths. -/
def shapes : Stream where
  rounds :=
    [⟨[7, 6, 5, 4, 3, 2, 1], ⟨.two, 6⟩⟩, ⟨[], ⟨.three, 0⟩⟩, ⟨[9], ⟨.four, 10⟩⟩,
      ⟨[], ⟨.many false 13, 1⟩⟩, ⟨[8], ⟨.many true 5, 20⟩⟩]
  last := [0]

/-- They are unpacked, behind two words that do not belong to them. -/
theorem unpack_pack_shapes :
    unpack ⟨9, 10, 11, 12⟩ ([0xDEADBEEF, 1].flatMap Bytes.ofWord32
        ++ pack ⟨9, 10, 11, 12⟩ [true, false, true] shapes)
      = .ok [0, 4, 5, 9, 6, 6, 8, 3, 2, 3, 2, 3, 2, 3, 2, 3, 2, 3, 2, 3, 2, 3, 4, 5, 9, 6, 6, 6, 6,
        7, 1, 2, 3, 4, 5, 6, 7] := by
  have hv : shapes.Valid ⟨9, 10, 11, 12⟩ := ⟨by decide, by decide⟩
  rw [(unpack_pack (by decide) hv (by decide) [0xDEADBEEF, 1]).1]
  decide

end AmigaBinary.Decrunch.PowerPacker
