import AmigaBinary.Proofs.Decrunch.StoneCracker.Accumulator
import AmigaBinary.Proofs.Decrunch.StoneCracker.Operation

/-!
# Crunching and unpacking

Operations are crunched by writing their bits into words, the first `lead` bits into a word of their
own (`crunch`). A file is unpacked from its parts (`unpack_file`), so the output of a crunched file
is what its operations stand for (`unpack_crunch`), whatever the width of its longest distances and
the number of bits in its first word.
-/

namespace AmigaBinary.Decrunch.StoneCracker

/-! ## 1. Files -/

/-- What the header gives the length of: the words of the stream, the width of the longest
    distances, and the first word. -/
def payload (eff first : UInt16) (words : List UInt16) : Bytes :=
  writeWordsBackward words ++ (Bytes.ofWord16 eff ++ Bytes.ofWord16 first)

/-- A packed file. Nothing reads the second word of its header. -/
def file (security total : UInt32) (eff first lead : UInt16) (words : List UInt16) : Bytes :=
  magic ++ (Bytes.ofWord32 security ++ (Bytes.ofWord32 total
    ++ (Bytes.ofWord32 (UInt32.ofNat (payload eff first words).length)
      ++ (payload eff first words ++ Bytes.ofWord16 lead))))

section File

variable {eff first lead : UInt16} {words : List UInt16}

/-- **The last three words tell how the words in front of them are read.** -/
theorem unpackTail_words {packed behind : Bytes} (heff : 10 ≤ eff.toNat ∧ eff.toNat ≤ 14)
    (size : Nat) (hdrop : packed.drop headerLength = writeWordsBackward words
      ++ (Bytes.ofWord16 eff ++ (Bytes.ofWord16 first ++ (Bytes.ofWord16 lead ++ behind)))) :
    ∃ exhausted, unpackTail packed size (headerLength + ((writeWordsBackward words).length + 4))
      = (expand exhausted eff.toNat size (.empty size)
          (streamBits (lead.toNat % 0x10) first words)).map Output.produced := by
  have hstored : (packed.take (headerLength + (writeWordsBackward words).length)).drop headerLength
      = writeWordsBackward words := by
    rw [List.drop_take, Nat.add_sub_cancel_left, hdrop, List.take_left]
  generalize hn : (writeWordsBackward words).length = n at hstored
  have hfields : packed.drop (headerLength + n)
      = Bytes.ofWord16 eff ++ (Bytes.ofWord16 first ++ (Bytes.ofWord16 lead ++ behind)) := by
    rw [← List.drop_drop, hdrop, List.drop_left' hn]
  have heffs : Bytes.readWord16 packed (headerLength + n) = .ok eff :=
    Bytes.readWord16_eq_ok.2 ⟨_, hfields⟩
  have hfirst : Bytes.readWord16 packed (headerLength + n + 2) = .ok first :=
    Bytes.readWord16_eq_ok.2 ⟨_, Bytes.drop_behind hfields⟩
  have hlead : Bytes.readWord16 packed (headerLength + n + 4) = .ok lead :=
    Bytes.readWord16_eq_ok.2 ⟨_, Bytes.drop_behind (Bytes.drop_behind hfields)⟩
  refine ⟨Error.inputExhausted .stoneCracker (headerLength - 2 + (headerLength + (n + 4)) % 2), ?_⟩
  unfold unpackTail
  rw [← Nat.add_assoc, hlead, show headerLength + n + 4 - 2 = headerLength + n + 2 by omega,
    Nat.add_sub_cancel, hfirst, heffs]
  dsimp only [bind, Except.bind]
  rw [if_neg (by omega), hstored, wordsBackward_writeWordsBackward]
  rfl

theorem length_payload (eff first : UInt16) (words : List UInt16) :
    (payload eff first words).length = (writeWordsBackward words).length + 4 := by
  rw [payload, List.length_append]
  rfl

/-- **A file is unpacked from its parts.** -/
theorem unpack_file (security total : UInt32) (lead : UInt16)
    (heff : 10 ≤ eff.toNat ∧ eff.toNat ≤ 14) (hlength : (payload eff first words).length < 2 ^ 32) :
    ∃ exhausted, unpack (file security total eff first lead words)
      = (expand exhausted eff.toNat total.toNat (.empty total.toNat)
          (streamBits (lead.toNat % 0x10) first words)).map Output.produced := by
  have htotal : Bytes.readWord32 (file security total eff first lead words) 8 = .ok total :=
    Bytes.readWord32_eq_ok.2 ⟨_, rfl⟩
  have hlen : Bytes.readWord32 (file security total eff first lead words) 12
      = .ok (UInt32.ofNat (payload eff first words).length) :=
    Bytes.readWord32_eq_ok.2 ⟨_, rfl⟩
  have hmagic : (file security total eff first lead words).take 4 = magic := rfl
  have hdrop : (file security total eff first lead words).drop headerLength
      = writeWordsBackward words ++ (Bytes.ofWord16 eff ++ (Bytes.ofWord16 first
          ++ (Bytes.ofWord16 lead ++ []))) := by
    show payload eff first words ++ Bytes.ofWord16 lead = _
    rw [payload, List.append_nil, List.append_assoc, List.append_assoc]
  have hsize : (file security total eff first lead words).length
      = headerLength + ((payload eff first words).length + 2) := by
    have hfour : magic.length = 4 := rfl
    simp only [file, List.length_append, Bytes.length_ofWord32, Bytes.length_ofWord16, hfour,
      headerLength]
    omega
  obtain ⟨exhausted, htail⟩ := unpackTail_words heff total.toNat hdrop
  refine ⟨exhausted, ?_⟩
  rw [← htail, ← length_payload eff first words]
  unfold unpack
  rw [if_neg (by omega), if_neg (not_not.2 hmagic), htotal, hlen]
  dsimp only [bind, Except.bind]
  rw [UInt32.toNat_ofNat_of_lt' hlength, if_neg (by omega)]

end File

/-! ## 2. Crunching -/

/-- The bits of operations. -/
def bitsOf (eff : Nat) (ops : List Operation) : List Bool :=
  ops.flatMap (Operation.bits eff)

/-- The first word: the first `lead` bits, highest first. -/
def firstWord (lead : Fin 16) (bits : List Bool) : UInt16 :=
  wordOf (bits.take lead)

/-- The words behind the first one. -/
def moreWords (lead : Fin 16) (bits : List Bool) : List UInt16 :=
  packWords (bits.drop lead)

/-- The file of operations. -/
def crunch (eff : Nat) (lead : Fin 16) (security : UInt32) (ops : List Operation) : Bytes :=
  let bits := bitsOf eff ops
  file security (UInt32.ofNat (total Operation.length ops)) (UInt16.ofNat eff) (firstWord lead bits)
    (UInt16.ofNat lead) (moreWords lead bits)

/-- **The bits of a crunched file are those of its operations**, with other bits behind them. -/
theorem streamBits_crunch (lead : Fin 16) (bits : List Bool) :
    ∃ rest, streamBits lead (firstWord lead bits) (moreWords lead bits) = bits ++ rest := by
  have hlead := lead.isLt
  have hfirst := highestFirst_wordOf (bits.take lead) (by rw [List.length_take]; omega)
  obtain ⟨rest, hmore⟩ := wordBits_packWords (bits.drop lead)
  have hstream : streamBits lead (firstWord lead bits) (moreWords lead bits)
      = (bits.take lead ++ List.replicate (16 - (bits.take lead).length) false).take lead
        ++ (bits.drop lead ++ rest) := by
    rw [← hfirst, ← hmore]
    rfl
  rw [hstream]
  by_cases hshort : bits.length ≤ lead
  · rw [List.take_of_length_le hshort, List.drop_eq_nil_of_le hshort, List.take_append,
      List.take_of_length_le hshort, List.append_assoc]
    exact ⟨_, rfl⟩
  · have htake : (bits.take lead).length = lead := by
      rw [List.length_take]
      omega
    rw [List.take_left' htake, ← List.append_assoc, List.take_append_drop]
    exact ⟨rest, rfl⟩

/-- The accumulator at the start of packed bits. -/
def accumulator (lead : Fin 16) (bits : List Bool) : Accumulator :=
  .start lead (firstWord lead bits) (moreWords lead bits)

/-! ## 3. The round trip -/

/-- A file whose bits start with those of operations is unpacked to what the operations stand for.
    -/
theorem unpack_of_bits {eff : Nat} {security : UInt32} {first lead : UInt16} {words : List UInt16}
    {ops : List Operation} {rest : List Bool} (heff : 10 ≤ eff ∧ eff ≤ 14)
    (hv : ∀ op ∈ ops, op.command.Valid eff) (hreach : CopiesReach 0 ops)
    (htotal : total Operation.length ops < 2 ^ 32)
    (hpayload : (payload (UInt16.ofNat eff) first words).length < 2 ^ 32)
    (hbits : streamBits (lead.toNat % 0x10) first words = bitsOf eff ops ++ rest) :
    unpack (file security (UInt32.ofNat (total Operation.length ops)) (UInt16.ofNat eff) first lead
      words) = .ok (denote ops) := by
  have he : (UInt16.ofNat eff).toNat = eff :=
    UInt16.toNat_ofNat_of_lt' (Nat.lt_of_le_of_lt heff.2 (by decide))
  have hsize : (UInt32.ofNat (total Operation.length ops)).toNat = total Operation.length ops :=
    UInt32.toNat_ofNat_of_lt' htotal
  obtain ⟨exhausted, hfile⟩ := unpack_file security (UInt32.ofNat (total Operation.length ops)) lead
    (show 10 ≤ (UInt16.ofNat eff).toNat ∧ (UInt16.ofNat eff).toNat ≤ 14 by rw [he]; exact heff)
    hpayload
  have hmax : total Operation.length ops ≤ maxLength := Nat.le_of_lt_succ htotal
  have hrun := expand_bits exhausted heff.1 hmax rest ops (.empty (total Operation.length ops)) hv
    hreach rfl rfl
  rw [hfile, he, hsize, hbits]
  exact map_eq_ok.2 ⟨_, hrun, rfl⟩

/-- **A crunched file is unpacked to what its operations stand for**: with every width of the
    longest distances, any number of bits in the first word, literal bytes, runs, and copies of all
    lengths and distances. Each command has one code, and nothing else is read as this command; the
    accumulator is a queue that starts with the bits of the operations. -/
theorem unpack_crunch {eff : Nat} (heff : 10 ≤ eff ∧ eff ≤ 14) (lead : Fin 16) (security : UInt32)
    {ops : List Operation} (hv : ∀ op ∈ ops, op.command.Valid eff) (hreach : CopiesReach 0 ops)
    (htotal : total Operation.length ops < 2 ^ 32)
    (hpayload : (payload (UInt16.ofNat eff) (firstWord lead (bitsOf eff ops))
      (moreWords lead (bitsOf eff ops))).length < 2 ^ 32) :
    unpack (crunch eff lead security ops) = .ok (denote ops) ∧
      (denote ops).length = total Operation.length ops ∧
      (∀ (exhausted : Error) (command : Command) (bits rest : List Bool),
        command.count < maxLength →
          (readCommand exhausted eff bits = .ok (command, rest) ↔
            command.Valid eff ∧ bits = command.code eff ++ rest)) ∧
      ∃ rest, ∀ (exhausted : Error) (widths : List (Fin 17)),
        readFields exhausted widths (bitsOf eff ops ++ rest)
          = ((accumulator lead (bitsOf eff ops)).readAll widths).elim (.error exhausted) .ok := by
  obtain ⟨rest, hbits⟩ := streamBits_crunch lead (bitsOf eff ops)
  have hlead : (UInt16.ofNat lead).toNat % 0x10 = lead := by
    have hlt := lead.isLt
    rw [UInt16.toNat_ofNat_of_lt' (by simp only [UInt16.size]; omega)]
    exact Nat.mod_eq_of_lt hlt
  refine ⟨?_, ?_, ?_, rest, ?_⟩
  · exact unpack_of_bits heff hv hreach htotal hpayload (by rw [hlead]; exact hbits)
  · exact length_applyAll ops []
  · intro exhausted command bits rest hmax
    exact readCommand_eq_ok_of_lt heff.1 hmax
  · intro exhausted widths
    rw [← hbits, ← Accumulator.stream_start]
    exact Accumulator.readFields_stream exhausted widths (accumulator lead (bitsOf eff ops))

/-- Literal bytes, a run, and copies of all four bands of lengths and all three ranges of distances.
    The first copy is longer than one group of its length can tell. -/
def bands : List Operation :=
  [.literal 1, .copy 0 600, .literals [2, 3, 4, 5, 6, 7, 8, 9, 10, 11, 12, 13, 14, 15], .copy 13 2,
    .copy 544 3, .copy 32 4, .copy 17 7, .copy 600 8, .copy 35 22, .copy 1 23]

/-- They are unpacked, seven of their bits being in the first word. -/
theorem unpack_crunch_bands :
    unpack (crunch 10 7 0 bands)
      = .ok ([1, 7, 1, 7, 1, 7, 1, 7, 1, 7, 1, 7, 1, 7, 1, 7, 1, 7, 1, 7, 1, 7, 1, 7, 1, 1, 1, 1, 1,
          1, 1, 3, 2, 15, 14, 13, 12, 11, 10, 9, 8, 7, 6, 5, 4, 1, 1, 1, 1, 1, 1, 1, 1, 13, 12, 11, 10,
          9, 8, 7, 1, 1, 1, 1, 1, 1, 1, 3, 2, 15, 14, 13, 12, 11, 10, 9, 8, 7, 6, 5, 4, 3, 2]
        ++ List.replicate 601 1) := by
  have hpayload : (payload 10 (firstWord 7 (bitsOf 10 bands))
      (moreWords 7 (bitsOf 10 bands))).length < 2 ^ 32 := by
    rw [length_payload, length_writeWordsBackward, moreWords, length_packWords]
    decide +kernel
  rw [(unpack_crunch (by decide) 7 0 (by decide) (by decide) (by decide) hpayload).1]
  decide +kernel

end AmigaBinary.Decrunch.StoneCracker
