import AmigaBinary.Proofs.Decrunch.Squash.Acceptance

/-!
# The register behind the bits

The bits of a stream come out of a register of 32 bits with a sentinel bit above those that are
still to be read. When only the sentinel bit is left, the next word is loaded and folded into the
checksum. Reading from the register is reading from the list of its bits (`readOnto_stream`), and
what is left of the list tells the state of the register: how many words are unread, what those that
were read fold to, and what the register holds (`checkEnd_eq_finish`).
-/

namespace AmigaBinary.Decrunch.Squash

/-! ## 1. The register -/

/-- A register, the words that were not read yet, and the exclusive or of the seed and everything
    that was. -/
structure Register where
  bits : UInt32
  unread : List UInt32
  sum : UInt32
  deriving DecidableEq, Repr

namespace Register

/-- The bits that are still to be read. -/
def stream (r : Register) : List Bool :=
  streamBits r.bits r.unread

/-- The next bit is the lowest one of the register. If nothing is left above it, it was the sentinel
    bit; then a word is loaded, whose lowest bit is the next one, and a sentinel bit goes above the
    others. -/
def next (r : Register) : Option (Bool × Register) :=
  if r.bits >>> 1 = 0 then
    match r.unread with
    | [] => none
    | word :: unread =>
      some (word.toNat.testBit 0, ⟨(word >>> 1) ||| 0x80000000, unread, r.sum ^^^ word⟩)
  else some (r.bits.toNat.testBit 0, { r with bits := r.bits >>> 1 })

/-- The value that the next `count` bits append to `high`. -/
def read (exhausted : Error) : Nat → Nat → Register → Except Error (Nat × Register)
  | high, 0, r => .ok (high, r)
  | high, count + 1, r =>
    match r.next with
    | none => .error exhausted
    | some (bit, r) => read exhausted (2 * high + bit.toNat) count r

/-- The test at the end: everything folds to zero, no word is unread, nor one of the bytes that make
    no word, and the register holds nothing but its sentinel bit. -/
def finish (leftover : Nat) (r : Register) : Except Error Unit :=
  let position := 4 * r.unread.length + leftover
  if r.sum ≠ 0 then .error (.checksum r.sum)
  else if position ≠ 0 ∨ r.bits.toNat ≠ 2 ^ Nat.log2 r.bits.toNat then
    .error (.unconsumedInput position r.bits)
  else .ok ()

end Register

/-! ## 2. What a register holds -/

/-- A register with nothing above its lowest bit has no bits to read. -/
theorem registerBits_last {register : UInt32} (h : register >>> 1 = 0) :
    registerBits register = [] := by
  have h2 : register.toNat / 2 = 0 := by
    rw [← toNat_shift, h]
    rfl
  have hlog : Nat.log2 register.toNat = 0 := by
    rw [Nat.log2_def, if_neg (by omega)]
  rw [registerBits, hlog]
  rfl

/-- Otherwise its lowest bit is the first one. -/
theorem registerBits_shift {register : UInt32} (h : register >>> 1 ≠ 0) :
    registerBits register = register.toNat.testBit 0 :: registerBits (register >>> 1) := by
  have h2 : 2 ≤ register.toNat := by
    by_contra hlt
    apply h
    apply UInt32.toNat_inj.1
    rw [toNat_shift]
    show register.toNat / 2 = 0
    omega
  have hlog : Nat.log2 register.toNat = Nat.log2 (register.toNat / 2) + 1 := by
    rw [Nat.log2_def, if_pos h2]
  rw [registerBits, registerBits, hlog, lowestFirst_succ, toNat_shift]

theorem toNat_loaded (word : UInt32) :
    (word >>> 1 ||| 0x80000000).toNat = word.toNat / 2 + 2 ^ 31 := by
  have hlt : word.toNat / 2 < 2 ^ 31 := by
    have := word.toNat_lt
    omega
  rw [UInt32.toNat_or, toNat_shift, Nat.or_comm, Nat.add_comm]
  exact (Nat.two_pow_add_eq_or_of_lt hlt 1).symm

/-- A loaded word has its bits above the lowest one still to be read. -/
theorem registerBits_loaded (word : UInt32) :
    registerBits (word >>> 1 ||| 0x80000000) = lowestFirst 31 (word.toNat / 2) := by
  have hlt : word.toNat / 2 < 2 ^ 31 := by
    have := word.toNat_lt
    omega
  have hlog : Nat.log2 (word.toNat / 2 + 2 ^ 31) = 31 := by
    rw [Nat.log2_eq_iff (by omega)]
    omega
  rw [registerBits, toNat_loaded, hlog]
  unfold lowestFirst
  apply List.map_congr_left
  intro i hi
  have hi' := List.mem_range.1 hi
  rw [Nat.add_comm, Nat.testBit_two_pow_add_gt hi']

theorem length_registerBits (register : UInt32) : (registerBits register).length < 32 := by
  rw [registerBits, length_lowestFirst]
  rcases Nat.eq_zero_or_pos register.toNat with h0 | hpos
  · rw [h0]
    decide
  · exact (Nat.log2_lt (by omega)).2 register.toNat_lt

/-- **A register is made of its bits and the sentinel bit**, unless it is empty. -/
theorem registerOf_registerBits {register : UInt32} (h : register ≠ 0) :
    registerOf (registerBits register) = register.toNat := by
  have h0 : register.toNat ≠ 0 := fun he => h (UInt32.toNat_inj.1 he)
  have hlo := Nat.log2_self_le h0
  have hhi := @Nat.lt_log2_self register.toNat
  rw [Nat.pow_succ] at hhi
  rw [registerOf_eq, registerBits, length_lowestFirst, numberOf_lowestFirst, Nat.mod_eq_sub_mod hlo,
    Nat.mod_eq_of_lt (by omega), Nat.sub_add_cancel hlo]

/-! ## 3. One bit -/

namespace Register

variable {r next : Register}

/-- **The next bit of a register is the first one of its stream**, and the others stay. -/
theorem stream_of_next {bit : Bool} (h : r.next = some (bit, next)) :
    r.stream = bit :: next.stream := by
  unfold Register.next at h
  split at h
  · rename_i hlast
    cases hu : r.unread with
    | nil =>
        rw [hu] at h
        cases h
    | cons word unread =>
        rw [hu] at h
        obtain ⟨rfl, rfl⟩ := Prod.mk.inj (Option.some.inj h)
        rw [stream, stream, streamBits_eq, streamBits_eq, registerBits_last hlast,
          registerBits_loaded, hu]
        show lowestFirst 32 word.toNat ++ longBits unread = _
        rw [lowestFirst_succ]
        rfl
  · rename_i hmore
    obtain ⟨rfl, rfl⟩ := Prod.mk.inj (Option.some.inj h)
    rw [stream, stream, streamBits_eq, streamBits_eq, registerBits_shift hmore]
    rfl

/-- A register has no next bit only if its stream is empty. -/
theorem stream_of_next_none (h : r.next = none) : r.stream = [] := by
  unfold Register.next at h
  split at h
  · rename_i hlast
    cases hu : r.unread with
    | nil =>
        rw [stream, streamBits_eq, registerBits_last hlast, hu]
        rfl
    | cons word unread =>
        rw [hu] at h
        cases h
  · cases h

/-- What a bit keeps: the words and the checksum belong together, and a register that a bit was
    taken from has a sentinel bit. -/
theorem sum_of_next {bit : Bool} (h : r.next = some (bit, next)) :
    next.unread <:+ r.unread ∧ next.sum ^^^ xorAll next.unread = r.sum ^^^ xorAll r.unread ∧
      next.bits ≠ 0 := by
  unfold Register.next at h
  split at h
  · cases hu : r.unread with
    | nil =>
        rw [hu] at h
        cases h
    | cons word unread =>
        rw [hu] at h
        obtain ⟨rfl, rfl⟩ := Prod.mk.inj (Option.some.inj h)
        refine ⟨List.suffix_cons word unread, ?_, ?_⟩
        · rw [xorAll_cons, UInt32.xor_assoc]
        · intro h0
          have h32 := congrArg UInt32.toNat h0
          rw [toNat_loaded, UInt32.toNat_zero] at h32
          omega
  · rename_i hmore
    obtain ⟨rfl, rfl⟩ := Prod.mk.inj (Option.some.inj h)
    exact ⟨List.suffix_refl _, rfl, hmore⟩

end Register

/-! ## 4. Many bits -/

namespace Register

variable {r next : Register} {exhausted : Error} {high count value : Nat}

/-- **Reading from a register is reading from its stream.** -/
theorem readOnto_stream (exhausted : Error) (high count : Nat) (r : Register) :
    readOnto exhausted high count r.stream
      = (r.read exhausted high count).map fun result => (result.1, result.2.stream) := by
  induction count generalizing high r with
  | zero => rfl
  | succ count ih =>
      rw [read]
      cases hn : r.next with
      | none =>
          rw [stream_of_next_none hn]
          rfl
      | some result =>
          rw [stream_of_next hn, readOnto, ih]

/-- What the reads of a whole run keep. -/
theorem sum_of_read (h : r.read exhausted high count = .ok (value, next)) :
    next.unread <:+ r.unread ∧ next.sum ^^^ xorAll next.unread = r.sum ^^^ xorAll r.unread ∧
      (count ≠ 0 → next.bits ≠ 0) := by
  induction count generalizing high r with
  | zero =>
      obtain ⟨rfl, rfl⟩ := Prod.mk.inj (Except.ok.inj h)
      exact ⟨List.suffix_refl _, rfl, fun h0 => absurd rfl h0⟩
  | succ count ih =>
      rw [read] at h
      cases hn : r.next with
      | none =>
          rw [hn] at h
          cases h
      | some result =>
          rw [hn] at h
          obtain ⟨hu, hs, hb⟩ := sum_of_next hn
          obtain ⟨hu', hs', hb'⟩ := ih h
          refine ⟨hu'.trans hu, hs'.trans hs, fun _ => ?_⟩
          rcases Nat.eq_zero_or_pos count with rfl | hpos
          · obtain ⟨-, rfl⟩ := Prod.mk.inj (Except.ok.inj h)
            exact hb
          · exact hb' (Nat.pos_iff_ne_zero.1 hpos)

/-- The register itself has fewer than 32 bits, so whole words of the stream are unread words. -/
theorem length_stream (r : Register) :
    r.stream.length = (registerBits r.bits).length + 32 * r.unread.length := by
  rw [stream, streamBits_eq, List.length_append, length_longBits]

theorem length_unread (r : Register) : r.unread.length = r.stream.length / 32 := by
  have := length_registerBits r.bits
  rw [length_stream]
  omega

/-- The bits of the register are the first bits of the stream, behind which only whole words are. -/
theorem take_stream (r : Register) :
    r.stream.take (r.stream.length % 32) = registerBits r.bits := by
  have hlt := length_registerBits r.bits
  have hmod : r.stream.length % 32 = (registerBits r.bits).length := by
    rw [length_stream, Nat.add_mul_mod_self_left, Nat.mod_eq_of_lt hlt]
  rw [hmod, stream, streamBits_eq, List.take_left]

end Register

/-! ## 5. The end -/

/-- A register that is empty or has a bit other than zero to read is no power of two. -/
theorem not_spent_iff (register : UInt32) :
    (register = 0 ∨ (registerBits register).any id = true) ↔
      register.toNat ≠ 2 ^ Nat.log2 register.toNat := by
  by_cases h0 : register = 0
  · subst h0
    decide
  · have hmade := registerOf_registerBits h0
    have hlen : (registerBits register).length = Nat.log2 register.toNat := by
      rw [registerBits, length_lowestFirst]
    rw [registerOf_eq, hlen] at hmade
    have hzero := @numberOf_eq_zero (registerBits register)
    rw [← Bool.not_eq_false, ← hzero]
    constructor
    · rintro (h | h)
      · exact absurd h h0
      · omega
    · intro h
      exact .inr (by omega)

/-- **The end test of the register**: after all bits but the last ones were read, the register
    passes the test, or fails it with the same error, that the bits and words that are left pass or
    fail. -/
theorem checkEnd_eq_finish {exhausted : Error} {leftover high value : Nat} {seed register : UInt32}
    {words : List UInt32} {consumed rest : List Bool} {r : Register}
    (hbits : streamBits register words = consumed ++ rest)
    (h : Register.read exhausted high consumed.length ⟨register, words, seed ^^^ register⟩
      = .ok (value, r)) :
    checkEnd leftover seed register words rest = r.finish leftover := by
  obtain ⟨⟨front, rfl⟩, hsum, hsentinel⟩ := Register.sum_of_read h
  have hstream : r.stream = rest := by
    have hread := Register.readOnto_stream exhausted high consumed.length
      ⟨register, front ++ r.unread, seed ^^^ register⟩
    rw [h] at hread
    obtain ⟨low, -, -, hs⟩ := readOnto_eq_ok.1 hread
    rw [Register.stream, hbits] at hs
    exact ((List.append_inj hs (by rw [length_highestFirst])).2).symm
  have hunread : rest.length / 32 = r.unread.length := by
    rw [← hstream, Register.length_unread]
  have hresidual : seed ^^^ register ^^^ xorAll ((front ++ r.unread).take
      ((front ++ r.unread).length - rest.length / 32)) = r.sum := by
    rw [hunread, List.length_append, Nat.add_sub_cancel, List.take_left]
    rw [xorAll_append, ← UInt32.xor_assoc] at hsum
    exact ((UInt32.xor_left_inj _).1 hsum).symm
  have hlast : (if rest.length = (streamBits register (front ++ r.unread)).length then register
      else UInt32.ofNat (registerOf (rest.take (rest.length % 32)))) = r.bits := by
    rw [hbits, List.length_append]
    rcases Nat.eq_zero_or_pos consumed.length with h0 | hpos
    · rw [h0] at h
      have hstart := congrArg Register.bits (Prod.mk.inj (Except.ok.inj h)).2
      rw [if_pos (by omega)]
      exact hstart
    · rw [if_neg (by omega), ← hstream, Register.take_stream,
        registerOf_registerBits (hsentinel (by omega)), UInt32.ofNat_toNat]
  have hspent : 4 * r.unread.length + leftover = 0 →
      ((r.bits = 0 ∨ rest.any id = true) ↔ r.bits.toNat ≠ 2 ^ Nat.log2 r.bits.toNat) := by
    intro hposition
    have hnil : r.unread = [] := List.length_eq_zero_iff.1 (by omega)
    have hrest : rest = registerBits r.bits := by
      rw [← hstream, Register.stream, streamBits_eq, hnil]
      exact List.append_nil _
    rw [hrest, not_spent_iff]
  simp only [checkEnd, Register.finish]
  rw [hresidual, hlast, hunread]
  by_cases hposition : 4 * r.unread.length + leftover = 0
  · simp only [hposition, ne_eq, not_true_eq_false, false_or, hspent hposition]
  · simp only [hposition, ne_eq, not_false_eq_true, true_or]

/-! ## 6. The register of a region -/

/-- The register when the seed and the first bits of a region have been read. -/
def Packed.start (p : Packed) : Register :=
  ⟨p.register, p.words, p.seed ^^^ p.register⟩

/-- As many bits as there are can be read. -/
theorem Register.read_of_stream {exhausted : Error} {r : Register} {bits rest : List Bool}
    (h : r.stream = bits ++ rest) :
    ∃ value next, r.read exhausted 0 bits.length = .ok (value, next) ∧
      highestFirst bits.length value = bits ∧ next.stream = rest := by
  obtain ⟨value, hv, hbits⟩ := exists_highestFirst bits
  have hread : readOnto exhausted 0 bits.length r.stream = .ok (value, rest) := by
    rw [h]
    refine readOnto_eq_ok.2 ⟨value, hv, by rw [Nat.zero_mul, Nat.zero_add], ?_⟩
    rw [hbits]
  rw [readOnto_stream] at hread
  obtain ⟨⟨v, next⟩, hr, he⟩ := map_eq_ok.1 hread
  obtain ⟨rfl, rfl⟩ := Prod.mk.inj he
  exact ⟨v, next, hr, hbits, rfl⟩

/-- **The register of an accepted region** gives the bits of the tokens in their order, and passes
    the test at the end behind them. -/
theorem Packed.Spells.read_start {p : Packed} {capacity spare : Nat} {tokens : List Token}
    (h : p.Spells capacity tokens spare) (exhausted : Error) :
    ∃ value r, p.start.read exhausted 0 (tokenBits tokens).length = .ok (value, r) ∧
      highestFirst (tokenBits tokens).length value = tokenBits tokens ∧ r.finish 0 = .ok () := by
  obtain ⟨value, r, hread, hbits, -⟩ := Register.read_of_stream (r := p.start) h.bits
  refine ⟨value, r, hread, hbits, ?_⟩
  rw [← checkEnd_eq_finish h.bits hread]
  refine (checkEnd_eq_ok ⟨tokenBits tokens, h.bits.symm⟩).2
    ⟨rfl, ?_, ?_, h.started, h.balanced⟩
  · rw [List.length_replicate]
  · rw [List.length_replicate]
    exact h.short

end AmigaBinary.Decrunch.Squash
