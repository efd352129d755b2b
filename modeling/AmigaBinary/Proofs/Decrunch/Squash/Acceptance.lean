import AmigaBinary.Proofs.Decrunch.Squash.Token

/-!
# The squashed files that are accepted

A file is accepted in one case only (`unsquash_eq_ok`): its packed region is whole words, the words
behind the size fold to zero, and their bits are those of tokens that fill the output, with fewer
than 32 zero bits behind them (`Packed.Spells`). The output is what these tokens stand for.
-/

namespace AmigaBinary.Decrunch.Squash

/-! ## 1. The exclusive or of words -/

theorem xorAll_cons (word : UInt32) (words : List UInt32) :
    xorAll (word :: words) = word ^^^ xorAll words := by
  suffices h : ∀ (words : List UInt32) (start : UInt32),
      words.foldl (· ^^^ ·) start = start ^^^ xorAll words by
    rw [xorAll, List.foldl_cons, h, UInt32.zero_xor]
  intro words
  induction words with
  | nil =>
      intro start
      exact (UInt32.xor_zero).symm
  | cons word words ih =>
      intro start
      rw [xorAll, List.foldl_cons, List.foldl_cons, ih, ih (0 ^^^ word), UInt32.zero_xor,
        UInt32.xor_assoc]

theorem xorAll_append (front back : List UInt32) :
    xorAll (front ++ back) = xorAll front ^^^ xorAll back := by
  induction front with
  | nil => exact UInt32.zero_xor.symm
  | cons word front ih => rw [List.cons_append, xorAll_cons, xorAll_cons, ih, UInt32.xor_assoc]

/-- The words of two lists differ by what their exclusive ors differ by. -/
theorem xorAll_zipWith {a b : List UInt32} (h : a.length = b.length) :
    xorAll (List.zipWith (· ^^^ ·) a b) = xorAll a ^^^ xorAll b := by
  induction a generalizing b with
  | nil =>
      obtain rfl := List.length_eq_zero_iff.1 h.symm
      rfl
  | cons x a ih =>
      cases b with
      | nil => simp at h
      | cons y b =>
          rw [List.zipWith_cons_cons, xorAll_cons, xorAll_cons, xorAll_cons,
            ih (Nat.succ.inj h)]
          ac_rfl

/-! ## 2. Bits of a register -/

theorem registerOf_eq (bits : List Bool) : registerOf bits = numberOf bits + 2 ^ bits.length := by
  induction bits with
  | nil => rfl
  | cons bit bits ih =>
      rw [registerOf, ih, numberOf, List.length_cons, Nat.pow_succ]
      omega

theorem toNat_registerOf {bits : List Bool} (h : bits.length < 32) :
    (UInt32.ofNat (registerOf bits)).toNat = registerOf bits := by
  have hn := numberOf_lt bits
  have hp : 2 ^ bits.length ≤ 2 ^ 31 := Nat.pow_le_pow_right (by decide) (by omega)
  rw [UInt32.toNat_ofNat', registerOf_eq]
  exact Nat.mod_eq_of_lt (by omega)

theorem registerOf_ne_zero {bits : List Bool} (h : bits.length < 32) :
    UInt32.ofNat (registerOf bits) ≠ 0 := by
  intro h0
  have hp := Nat.two_pow_pos bits.length
  have ht := toNat_registerOf h
  rw [h0, registerOf_eq, UInt32.toNat_zero] at ht
  omega

/-- **A register holds the bits it was made of.** -/
theorem registerBits_registerOf {bits : List Bool} (h : bits.length < 32) :
    registerBits (UInt32.ofNat (registerOf bits)) = bits := by
  have hl : Nat.log2 (registerOf bits) = bits.length := by
    rw [registerOf_eq, Nat.log2_eq_iff (by have := Nat.two_pow_pos bits.length; omega)]
    have := numberOf_lt bits
    rw [Nat.pow_succ]
    omega
  rw [registerBits, toNat_registerOf h, hl, registerOf_eq]
  have hb := lowestFirst_numberOf bits 1
  rw [Nat.mul_one] at hb
  exact hb

theorem streamBits_eq (register : UInt32) (words : List UInt32) :
    streamBits register words = registerBits register ++ longBits words := rfl

/-! ## 3. The end of a stream -/

/-- The register at the end is zero only if it was zero from the start and no word came after it:
    every word that is read brings a sentinel bit of its own. -/
theorem last_eq_zero {register : UInt32} {words : List UInt32} {rest : List Bool}
    (hs : rest <:+ streamBits register words) (hl : rest.length < 32) :
    (if rest.length = (streamBits register words).length then register
      else UInt32.ofNat (registerOf (rest.take (rest.length % 32)))) = 0 ↔
      register = 0 ∧ words = [] := by
  have hlen : (streamBits register words).length
      = (registerBits register).length + 32 * words.length := by
    rw [streamBits_eq, List.length_append, length_longBits]
  have htake : (rest.take (rest.length % 32)).length < 32 := by
    rw [List.length_take]
    omega
  constructor
  · intro h
    split at h
    · rename_i he
      refine ⟨h, List.length_eq_zero_iff.1 ?_⟩
      omega
    · exact absurd h (registerOf_ne_zero htake)
  · rintro ⟨rfl, rfl⟩
    have h0 : (registerBits 0).length = 0 := rfl
    rw [List.length_nil, Nat.mul_zero, Nat.add_zero, h0] at hlen
    have hle := hs.length_le
    rw [if_pos (by omega)]

/-- **The end of a stream is accepted** if no byte is left over, only zero bits of the last word
    are unread, and the words fold to zero. A stream without a register and without words has no
    sentinel bit at all. -/
theorem checkEnd_eq_ok {leftover : Nat} {seed register : UInt32} {words : List UInt32}
    {rest : List Bool} (hs : rest <:+ streamBits register words) :
    checkEnd leftover seed register words rest = .ok () ↔
      leftover = 0 ∧ rest = List.replicate rest.length false ∧ rest.length < 32 ∧
        (register ≠ 0 ∨ words ≠ []) ∧ xorAll (seed :: register :: words) = 0 := by
  have hz : (¬ rest.any id = true) ↔ rest = List.replicate rest.length false := by
    rw [List.eq_replicate_iff]
    simp
  have hx : rest.length < 32 →
      seed ^^^ register ^^^ xorAll (words.take (words.length - rest.length / 32))
        = xorAll (seed :: register :: words) := fun hl => by
    rw [Nat.div_eq_of_lt hl, Nat.sub_zero, List.take_length, xorAll_cons, xorAll_cons,
      UInt32.xor_assoc]
  have hlast := last_eq_zero hs
  simp only [checkEnd]
  generalize (if rest.length = (streamBits register words).length then register
    else UInt32.ofNat (registerOf (rest.take (rest.length % 32)))) = last at hlast ⊢
  constructor
  · intro h
    split at h
    · cases h
    · rename_i hr
      split at h
      · cases h
      · rename_i hp
        rw [not_or, not_or] at hp
        obtain ⟨h0, h1, hany⟩ := hp
        have hl : rest.length < 32 := by omega
        rw [hlast hl, not_and_or] at h1
        refine ⟨by omega, hz.1 hany, hl, h1, ?_⟩
        rw [← hx hl]
        exact not_not.1 hr
  · rintro ⟨rfl, hrest, hl, hstart, hsum⟩
    have h1 := mt (hlast hl).1 (not_and_or.2 hstart)
    rw [if_neg (not_not.2 ((hx hl).trans hsum)), if_neg]
    rw [not_or, not_or]
    exact ⟨by omega, h1, hz.2 hrest⟩

/-! ## 4. Packed regions -/

/-- What a packed region of whole words consists of. -/
structure Packed where
  size : UInt32
  seed : UInt32
  register : UInt32
  words : List UInt32
  deriving DecidableEq, Repr

namespace Packed

/-- The words behind the size, in reading order. The checksum is over these. -/
def covered (p : Packed) : List UInt32 :=
  p.seed :: p.register :: p.words

/-- The region as it stands in a file. -/
def bytes (p : Packed) : Bytes :=
  writeBackward (p.size :: p.covered)

theorem longsBackward_bytes (p : Packed) : longsBackward p.bytes = p.size :: p.covered :=
  longsBackward_writeBackward _

theorem length_bytes (p : Packed) : p.bytes.length = 4 * (p.words.length + 3) :=
  length_writeBackward _

theorem bytes_inj {p q : Packed} (h : p.bytes = q.bytes) : p = q := by
  have hw := congrArg longsBackward h
  rw [longsBackward_bytes, longsBackward_bytes] at hw
  cases p
  cases q
  simp only [covered, List.cons.injEq] at hw
  simp only [Packed.mk.injEq]
  exact hw

/-- The bytes of a region start with those of the covered words. The size is at the end. -/
theorem bytes_eq (p : Packed) : p.bytes = writeBackward p.covered ++ Bytes.ofWord32 p.size :=
  writeBackward_cons _ _

theorem length_bytes_covered (p : Packed) :
    p.bytes.length = (writeBackward p.covered).length + 4 := by
  rw [bytes_eq, List.length_append, Bytes.length_ofWord32]

/-- The region is that of tokens for a buffer of `capacity` bytes, with spare zero bits behind
    them. -/
structure Spells (p : Packed) (capacity : Nat) (tokens : List Token) (spare : Nat) : Prop where
  valid : ∀ t ∈ tokens, t.Valid
  size : total Token.length tokens = p.size.toNat
  fits : p.size.toNat ≤ capacity
  inBuffer : InBuffer capacity tokens
  bits : streamBits p.register p.words = tokenBits tokens ++ List.replicate spare false
  short : spare < 32
  started : p.register ≠ 0 ∨ p.words ≠ []
  balanced : xorAll p.covered = 0

/-- Behind the tokens of a region its end is accepted. -/
theorem Spells.checkEnd {p : Packed} {capacity spare : Nat} {tokens : List Token}
    (hs : p.Spells capacity tokens spare) :
    Squash.checkEnd (p.bytes.length % 4) p.seed p.register p.words (List.replicate spare false)
      = .ok () := by
  have h4 : p.bytes.length % 4 = 0 := by
    rw [length_bytes]
    omega
  refine (checkEnd_eq_ok ⟨tokenBits tokens, hs.bits.symm⟩).2 ⟨h4, ?_, ?_, hs.started, hs.balanced⟩
  · rw [List.length_replicate]
  · rw [List.length_replicate]
    exact hs.short

end Packed

/-- **A region is accepted** if it spells tokens, and its output is what these stand for. -/
theorem expandRegion_eq_ok {capacity : Nat} {region out : Bytes} :
    expandRegion capacity region = .ok out ↔
      ∃ (p : Packed) (tokens : List Token) (spare : Nat),
        region = p.bytes ∧ p.Spells capacity tokens spare ∧ out = denote tokens := by
  constructor
  · intro h
    rw [expandRegion] at h
    split at h
    · rename_i size seed register words hw
      split at h
      · cases h
      · rename_i hfits
        obtain ⟨⟨final, rest⟩, hexpand, h⟩ := bind_eq_ok.1 h
        obtain ⟨u, hend, h⟩ := bind_eq_ok.1 h
        obtain ⟨tokens, hvalid, hsize, hin, hbits, rfl⟩ := expand_eq_ok.1 hexpand
        obtain ⟨h4, hrest, hshort, hstart, hsum⟩ :=
          (checkEnd_eq_ok ⟨tokenBits tokens, hbits.symm⟩).1 hend
        refine ⟨⟨size, seed, register, words⟩, tokens, rest.length, ?_, ?_, ?_⟩
        · rw [Packed.bytes, Packed.covered, ← hw, writeBackward_longsBackward h4]
        · exact ⟨hvalid, hsize, Nat.le_of_not_lt hfits, hin, hrest ▸ hbits, hshort, hstart, hsum⟩
        · exact (Except.ok.inj h).symm
    · cases h
  · rintro ⟨p, tokens, spare, rfl, hs, rfl⟩
    have hexpand : expand (.inputExhausted .squash (p.bytes.length % 4)) capacity
        (.empty p.size.toNat) (streamBits p.register p.words)
        = .ok (⟨0, denote tokens⟩, List.replicate spare false) :=
      expand_eq_ok.2 ⟨tokens, hs.valid, hs.size, hs.inBuffer, hs.bits, rfl⟩
    rw [expandRegion, Packed.longsBackward_bytes]
    simp only [Packed.covered]
    rw [if_neg (Nat.not_lt.2 hs.fits)]
    exact bind_eq_ok.2 ⟨_, hexpand, bind_eq_ok.2 ⟨(), hs.checkEnd, rfl⟩⟩

/-! ## 5. Files -/

/-- A squashed file: the header with the two sizes, the packed region, and what stands behind it. -/
def file (buffer length : UInt32) (region behind : Bytes) : Bytes :=
  magic ++ (Bytes.ofWord32 buffer ++ (Bytes.ofWord32 length ++ (region ++ behind)))

/-- The header is read if the region is as long as the header says. -/
theorem region_eq_ok {data packed : Bytes} {capacity : Nat} :
    region data = .ok (capacity, packed) ↔
      ∃ (buffer length : UInt32) (behind : Bytes), data = file buffer length packed behind ∧
        packed.length = length.toNat ∧ capacity = buffer.toNat := by
  have hm : magic.length = 4 := rfl
  constructor
  · intro h
    unfold region at h
    split at h
    · cases h
    · split at h
      · cases h
      · rename_i hlen hmagic
        obtain ⟨buffer, hb, h⟩ := bind_eq_ok.1 h
        obtain ⟨length, hl, h⟩ := bind_eq_ok.1 h
        obtain ⟨slice, hs, h⟩ := bind_eq_ok.1 h
        obtain ⟨rfl, rfl⟩ := Prod.mk.inj (Except.ok.inj h)
        obtain ⟨r4, h4⟩ := Bytes.readWord32_eq_ok.1 hb
        obtain ⟨r8, h8⟩ := Bytes.readWord32_eq_ok.1 hl
        obtain ⟨-, hsl, behind, h12⟩ := Bytes.readSlice_eq_ok.1 hs
        refine ⟨buffer, length, behind, ?_, hsl, rfl⟩
        -- each field stands behind the one before it
        have e8 : data.drop 8 = r4 := Bytes.drop_behind h4
        have e12 : data.drop 12 = r8 := Bytes.drop_behind h8
        rw [file, ← h12, e12, ← h8, e8, ← h4, ← not_not.1 hmagic, List.take_append_drop]
  · rintro ⟨buffer, length, behind, rfl, hlen, rfl⟩
    have hdata : ¬ (file buffer length packed behind).length < 12 := by
      simp only [file, List.length_append, Bytes.length_ofWord32]
      omega
    have htake : (file buffer length packed behind).take 4 = magic := List.take_left' hm
    have d4 : (file buffer length packed behind).drop 4
        = Bytes.ofWord32 buffer ++ (Bytes.ofWord32 length ++ (packed ++ behind)) :=
      List.drop_left' hm
    have d8 : (file buffer length packed behind).drop 8
        = Bytes.ofWord32 length ++ (packed ++ behind) := Bytes.drop_behind d4
    have d12 : (file buffer length packed behind).drop 12 = packed ++ behind :=
      Bytes.drop_behind d8
    unfold region
    rw [if_neg hdata, if_neg (not_not.2 htake)]
    refine bind_eq_ok.2 ⟨buffer, Bytes.readWord32_eq_ok.2 ⟨_, d4⟩, ?_⟩
    refine bind_eq_ok.2 ⟨length, Bytes.readWord32_eq_ok.2 ⟨_, d8⟩, ?_⟩
    exact bind_eq_ok.2 ⟨packed,
      Bytes.readSlice_eq_ok.2 ⟨Nat.le_of_not_lt hdata, hlen, behind, d12⟩, rfl⟩

/-- A file whose region is as long as the header says is accepted if the region spells tokens. -/
theorem unsquash_file {buffer length : UInt32} {p : Packed} (hlen : p.bytes.length = length.toNat)
    (behind out : Bytes) :
    unsquash (file buffer length p.bytes behind) = .ok out ↔
      ∃ tokens spare, p.Spells buffer.toNat tokens spare ∧ out = denote tokens := by
  have hr : region (file buffer length p.bytes behind) = .ok (buffer.toNat, p.bytes) :=
    region_eq_ok.2 ⟨buffer, length, behind, rfl, hlen, rfl⟩
  rw [unsquash, hr]
  show expandRegion buffer.toNat p.bytes = .ok out ↔ _
  rw [expandRegion_eq_ok]
  constructor
  · rintro ⟨q, tokens, spare, hq, hs, rfl⟩
    obtain rfl := Packed.bytes_inj hq
    exact ⟨tokens, spare, hs, rfl⟩
  · rintro ⟨tokens, spare, hs, rfl⟩
    exact ⟨p, tokens, spare, rfl, hs, rfl⟩

/-- **A squashed file is accepted** if its region spells tokens for its buffer, and its output is
    what these stand for. -/
theorem unsquash_eq_ok {data out : Bytes} :
    unsquash data = .ok out ↔
      ∃ (buffer length : UInt32) (p : Packed) (behind : Bytes) (tokens : List Token)
        (spare : Nat), data = file buffer length p.bytes behind ∧
        p.bytes.length = length.toNat ∧ p.Spells buffer.toNat tokens spare ∧
        out = denote tokens := by
  constructor
  · intro h
    obtain ⟨⟨capacity, packed⟩, hr, he⟩ := bind_eq_ok.1 h
    obtain ⟨buffer, length, behind, rfl, hlen, rfl⟩ := region_eq_ok.1 hr
    obtain ⟨p, tokens, spare, rfl, hs, rfl⟩ := expandRegion_eq_ok.1 he
    exact ⟨buffer, length, p, behind, tokens, spare, rfl, hlen, hs, rfl⟩
  · rintro ⟨buffer, length, p, behind, tokens, spare, rfl, hlen, hs, rfl⟩
    exact (unsquash_file hlen behind _).2 ⟨tokens, spare, hs, rfl⟩

/-! ## 6. A squashed text -/

/-- "abracadabra" in two tokens: seven literal bytes, and four bytes copied from seven bytes
    ahead. The first ten bits are in the register. -/
def abracadabra : Packed where
  size := 11
  seed := 3558605449
  register := 1228
  words := [875704948, 3761124401]

theorem spells_abracadabra : abracadabra.Spells 16
    [.literals (Bytes.ascii "arbadac"), .copy .four 7] 0 where
  valid := by decide
  size := by decide
  fits := by decide
  inBuffer := by decide
  bits := by decide
  short := by decide
  started := by decide
  balanced := by decide

theorem unsquash_abracadabra :
    unsquash (file 16 20 abracadabra.bytes []) = .ok (Bytes.ascii "abracadabra") :=
  unsquash_eq_ok.2 ⟨16, 20, abracadabra, [], _, 0, rfl, rfl, spells_abracadabra, by decide⟩

end AmigaBinary.Decrunch.Squash
