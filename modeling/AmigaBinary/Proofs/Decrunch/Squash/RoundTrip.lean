import AmigaBinary.Proofs.Decrunch.Squash.Register

/-!
# Squashing and unsquashing

Tokens are squashed by writing their bits into a register and words, the seed being what makes them
fold to zero (`pack`). Whatever part of the bits is in the register, the file is accepted and its
output is what the tokens stand for (`unsquash_squash`), as long as their copies name bytes that
have been produced before. The register gives the bits of the tokens and nothing else.
-/

namespace AmigaBinary.Decrunch.Squash

/-! ## 1. Squashing -/

/-- The packed region of tokens, with the first `lead` bits in the register. -/
def pack (lead : Nat) (tokens : List Token) : Packed :=
  let bits := tokenBits tokens
  let register := UInt32.ofNat (registerOf (bits.take lead))
  let words := packLongs (bits.drop lead)
  { size := UInt32.ofNat (total Token.length tokens)
    seed := register ^^^ xorAll words
    register := register
    words := words }

/-- The squashed file of tokens. -/
def squash (buffer : UInt32) (lead : Nat) (tokens : List Token) : Bytes :=
  let packed := (pack lead tokens).bytes
  file buffer (UInt32.ofNat packed.length) packed []

/-- Each copy of the tokens names a byte that is there when it is made: the first byte of a copy is
    the one that reads farthest, and `produced` bytes are there before the tokens. -/
def CopiesProduced (produced : Nat) : List Token → Prop
  | [] => True
  | .literals bytes :: rest => CopiesProduced (produced + bytes.length) rest
  | .copy shape distance :: rest =>
      1 ≤ distance ∧ distance ≤ produced ∧ CopiesProduced (produced + shape.count) rest

instance decidableCopiesProduced (produced : Nat) : (tokens : List Token) →
    Decidable (CopiesProduced produced tokens)
  | [] => isTrue trivial
  | .literals bytes :: rest => decidableCopiesProduced (produced + bytes.length) rest
  | .copy shape _ :: rest =>
      @instDecidableAnd _ _ _ (@instDecidableAnd _ _ _
        (decidableCopiesProduced (produced + shape.count) rest))

/-! ## 2. The packed region spells the tokens -/

/-- Copies of produced bytes stay inside of a buffer that has room for the output. -/
theorem inBuffer_of_copiesProduced {capacity produced : Nat} {tokens : List Token}
    (hv : ∀ t ∈ tokens, t.Valid) (hc : CopiesProduced produced tokens)
    (hfits : produced + total Token.length tokens ≤ capacity) : InBuffer capacity tokens := by
  induction tokens generalizing produced with
  | nil => trivial
  | cons t tokens ih =>
      rw [List.forall_mem_cons] at hv
      rw [total_cons, ← Nat.add_assoc] at hfits
      cases t with
      | literals bytes => exact ⟨trivial, ih hv.2 hc hfits⟩
      | copy shape distance =>
          obtain ⟨h1, hd, hc⟩ := hc
          refine ⟨?_, ih hv.2 hc hfits⟩
          have hpos := hv.1.length_pos
          show total Token.length (.copy shape distance :: tokens) - 1 + distance < capacity
          rw [total_cons]
          omega

/-- **The bits of a packed region are those of the tokens**, whichever part of them is in the
    register, and the zero bits that fill up the last word. -/
theorem streamBits_pack {lead : Nat} (hl : lead < 32) (tokens : List Token) :
    streamBits (pack lead tokens).register (pack lead tokens).words
      = tokenBits tokens ++ padding ((tokenBits tokens).drop lead).length := by
  have htake : ((tokenBits tokens).take lead).length < 32 :=
    Nat.lt_of_le_of_lt (List.length_take_le ..) hl
  rw [streamBits_eq, pack, registerBits_registerOf htake, longBits_packLongs,
    ← List.append_assoc, List.take_append_drop]

theorem spells_pack {capacity lead : Nat} {tokens : List Token} (hv : ∀ t ∈ tokens, t.Valid)
    (hc : CopiesProduced 0 tokens) (hfits : total Token.length tokens ≤ capacity)
    (h32 : capacity < 2 ^ 32) (hl : lead < 32) :
    (pack lead tokens).Spells capacity tokens
      ((32 - ((tokenBits tokens).drop lead).length % 32) % 32) := by
  have hsize : (pack lead tokens).size.toNat = total Token.length tokens :=
    UInt32.toNat_ofNat_of_lt' (Nat.lt_of_le_of_lt hfits h32)
  have htake : ((tokenBits tokens).take lead).length < 32 :=
    Nat.lt_of_le_of_lt (List.length_take_le ..) hl
  exact
    { valid := hv
      size := hsize.symm
      fits := hsize ▸ hfits
      inBuffer := inBuffer_of_copiesProduced hv hc (by rw [Nat.zero_add]; exact hfits)
      bits := streamBits_pack hl tokens
      short := Nat.mod_lt _ (by decide)
      started := .inl (registerOf_ne_zero htake)
      balanced := by
        rw [Packed.covered, xorAll_cons, xorAll_cons, pack, UInt32.xor_self] }

theorem length_bytes_pack (lead : Nat) (tokens : List Token) :
    (pack lead tokens).bytes.length = 4 * (((tokenBits tokens).length - lead + 31) / 32 + 3) := by
  rw [Packed.length_bytes, pack, length_packLongs, List.length_drop]

/-! ## 3. The round trip -/

/-- **Squashed tokens are unsquashed to what they stand for**: tokens of all shapes whose copies
    name produced bytes, in any buffer that has room for the output, with up to 31 bits in the
    register. Bit by bit, the register gives what the tokens were written as, and passes the test at
    the end. The region has to be short enough for its length to stand in the header. -/
theorem unsquash_squash {tokens : List Token} {buffer : UInt32} {lead : Nat}
    (hv : ∀ t ∈ tokens, t.Valid) (hc : CopiesProduced 0 tokens)
    (hfits : total Token.length tokens ≤ buffer.toNat) (hl : lead < 32)
    (hlen : (pack lead tokens).bytes.length < 2 ^ 32) :
    unsquash (squash buffer lead tokens) = .ok (denote tokens) ∧
      (denote tokens).length = total Token.length tokens ∧
      ∀ exhausted, ∃ value r,
        (pack lead tokens).start.read exhausted 0 (tokenBits tokens).length = .ok (value, r) ∧
        highestFirst (tokenBits tokens).length value = tokenBits tokens ∧ r.finish 0 = .ok () := by
  have hs := spells_pack hv hc hfits buffer.toNat_lt hl
  have hregion : (pack lead tokens).bytes.length
      = (UInt32.ofNat (pack lead tokens).bytes.length).toNat :=
    (UInt32.toNat_ofNat_of_lt' hlen).symm
  refine ⟨?_, length_applyAll tokens [], hs.read_start⟩
  exact (unsquash_file hregion [] _).2 ⟨tokens, _, hs, rfl⟩

/-- Tokens of all shapes, the last copy one of bytes that it has just written. -/
def shapes : List Token :=
  [.literals [9, 8, 7, 6, 5, 4, 3, 2, 1], .copy .two 9, .copy .three 3, .copy .four 12,
    .copy (.many 6) 2, .literals [0]]

/-- They are unsquashed, with a part of the first mark in the register. -/
theorem unsquash_squash_shapes :
    unsquash (squash 40 5 shapes)
      = .ok [0, 4, 5, 4, 5, 4, 5, 4, 5, 6, 7, 8, 9, 1, 8, 9, 1, 2, 3, 4, 5, 6, 7, 8, 9] := by
  have hfits : total Token.length shapes ≤ (40 : UInt32).toNat := by decide
  have hlen : (pack 5 shapes).bytes.length < 2 ^ 32 := by
    have hbits : (tokenBits shapes).length = 154 := rfl
    rw [length_bytes_pack, hbits]
    decide
  rw [(unsquash_squash (by decide) (by decide) hfits (by decide) hlen).1]
  decide

end AmigaBinary.Decrunch.Squash
