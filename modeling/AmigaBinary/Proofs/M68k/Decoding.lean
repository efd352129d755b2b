import AmigaBinary.Proofs.M68k.Classification

/-!
# Decoding classified opcodes

The opcode alone tells how many words an instruction has. If they are there, the instruction is
decoded, whatever they are, and it is counted to have this many; if not, the error is that of the
first word that is missing (`readInstruction_of_classify`). An opcode that is no instruction is one
of its own, without words.
-/

namespace AmigaBinary.M68k

variable {op : Opcode} {form : InstructionCode} {rest : Bytes}

/-! ## 1. Behind the opcode -/

theorem total_reverse {α : Type} (measure : α → Nat) (list : List α) :
    total measure list.reverse = total measure list := by
  induction list with
  | nil => rfl
  | cons a list ih =>
      rw [List.reverse_cons, total_append, ih, total_cons, total_cons, total_nil]
      omega

theorem decode_of_unclassified (h : classify op = none) (rest : Bytes) (position : Nat) :
    decode ⟨Bytes.ofWord16 op ++ rest, position, []⟩ = .ok ⟨position, op, none, [], []⟩ := by
  unfold decode
  refine bind_eq_ok.2 ⟨_, next_ofWord16 op rest position [], ?_⟩
  dsimp only
  rw [h]

/-- **With its words behind it, an opcode is decoded**, whatever they are. -/
theorem decode_of_words (h : classify op = some form) {words : List UInt16}
    (hlen : words.length = form.requiredWords op) (rest : Bytes) (position : Nat) :
    ∃ operands, decode ⟨Bytes.ofWord16 op ++ (words.flatMap Bytes.ofWord16 ++ rest), position, []⟩
        = .ok ⟨position, op, some form, operands, words⟩ ∧
      total Operand.extensionWords operands = form.requiredWords op := by
  obtain ⟨layout, hl⟩ := laid_of_classify h
  obtain ⟨operands, hread, hcount⟩ := (takes_readSlots layout.slots).found
    ⟨words.flatMap Bytes.ofWord16 ++ rest, position + 2, []⟩ words rest
    (hlen.trans hl.words.symm) rfl
  refine ⟨if layout.backward then operands.reverse else operands, ?_, ?_⟩
  · rw [decode_classified h hl.slots, hread]
    rfl
  · split
    · rw [total_reverse, hcount, hl.operands]
    · rw [hcount, hl.operands]

/-- **Without its words, an opcode is truncated code.** -/
theorem decode_of_short (h : classify op = some form)
    (hlen : rest.length < 2 * form.requiredWords op) (position : Nat) :
    decode ⟨Bytes.ofWord16 op ++ rest, position, []⟩
      = .error (.truncated (position + 2 + 2 * (rest.length / 2)) 2 (rest.length % 2)) := by
  obtain ⟨layout, hl⟩ := laid_of_classify h
  have hshort : rest.length < 2 * total Slot.extensionWords layout.slots := by
    rw [← hl.words] at hlen
    exact hlen
  rw [decode_classified h hl.slots,
    (takes_readSlots layout.slots).short ⟨rest, position + 2, []⟩ hshort]
  rfl

/-! ## 2. Reading an instruction -/

/-- An instruction has the `n` words that follow its opcode in some code, and takes no other. -/
structure Instruction.ReadFrom (i : Instruction) (code : Bytes) (n : Nat) : Prop where
  length : i.words.length = n
  words : i.words.flatMap Bytes.ofWord16 = (code.drop 2).take (2 * n)
  bytes : i.bytes = code.take (2 + 2 * n)
  required : i.requiredExtensionWords = n

theorem readFrom_of_words {i : Instruction} {code : Bytes}
    (hcode : code = Bytes.ofWord16 i.opcode ++ (i.words.flatMap Bytes.ofWord16 ++ rest))
    (hcount : i.requiredExtensionWords = i.words.length) : i.ReadFrom code i.words.length where
  length := rfl
  words := by
    rw [hcode, ← Bytes.length_ofWord16 i.opcode, List.drop_left, Bytes.length_ofWord16,
      ← Bytes.length_flatMap_ofWord16, List.take_left]
  bytes := by
    have hbytes : i.bytes = Bytes.ofWord16 i.opcode ++ i.words.flatMap Bytes.ofWord16 :=
      List.flatMap_cons ..
    have hlen : i.bytes.length = 2 + 2 * i.words.length := by
      rw [hbytes, List.length_append, Bytes.length_ofWord16,
        Bytes.length_flatMap_ofWord16]
    rw [hcode, ← List.append_assoc, ← hbytes, ← hlen, List.take_left]
  required := hcount

/-- **The classification of an opcode decides how it is read.** What is no instruction is a word of
    its own. An instruction has a number of words that the opcode decides, at most four: those of
    its form and those of its effective addresses. If they are there, it is read with exactly these
    words, and its operands are counted to have as many. Otherwise the error is that of the first
    word that is missing. -/
theorem readInstruction_of_classify {code : Bytes} {offset : Nat} {op : Opcode}
    (hop : Bytes.readWord16 code offset = .ok op) :
    (classify op = none → ∃ i, readInstruction code offset = .ok i ∧
      i = ⟨offset, op, none, [], []⟩ ∧ i.ReadFrom (code.drop offset) 0) ∧
    ∀ form, classify op = some form →
      form.requiredWords op ≤ 4 ∧
      (2 + 2 * form.requiredWords op ≤ (code.drop offset).length →
        ∃ i, readInstruction code offset = .ok i ∧ i.offset = offset ∧ i.opcode = op ∧
          i.code = some form ∧ i.ReadFrom (code.drop offset) (form.requiredWords op)) ∧
      ((code.drop offset).length < 2 + 2 * form.requiredWords op →
        readInstruction code offset
          = .error (.truncated (offset + 2 * ((code.drop offset).length / 2)) 2
            ((code.drop offset).length % 2))) := by
  obtain ⟨rest, hrest⟩ := Bytes.readWord16_eq_ok.1 hop
  have hread : readInstruction code offset = decode ⟨Bytes.ofWord16 op ++ rest, offset, []⟩ := by
    rw [readInstruction, WordReader.start, hrest]
  have hlength : (code.drop offset).length = 2 + rest.length := by
    rw [hrest, List.length_append, Bytes.length_ofWord16]
  rw [hread]
  constructor
  · intro h
    exact ⟨_, decode_of_unclassified h rest offset, rfl, readFrom_of_words hrest rfl⟩
  · intro form h
    obtain ⟨layout, hl⟩ := laid_of_classify h
    refine ⟨hl.words_le, ?_, ?_⟩
    · intro hlong
      have hfits : 2 * form.requiredWords op ≤ rest.length := by omega
      obtain ⟨words, behind, hlen, rfl⟩ := exists_words hfits
      obtain ⟨operands, hdecode, hcount⟩ := decode_of_words h hlen behind offset
      refine ⟨_, hdecode, rfl, rfl, rfl, ?_⟩
      rw [← hlen]
      exact readFrom_of_words hrest (hcount.trans hlen.symm)
    · intro hshort
      rw [decode_of_short h (by omega) offset, hlength]
      congr 2 <;> omega

/-- A long is moved from immediate data to an absolute address, which takes four words. -/
theorem readInstruction_of_classify_move :
    (∃ i, readInstruction [0x4E, 0x71, 0x23, 0xFC, 0, 1, 0, 2, 0, 3, 0, 4, 0x4E, 0x75] 2 = .ok i ∧
      i.bytes = [0x23, 0xFC, 0, 1, 0, 2, 0, 3, 0, 4] ∧ i.requiredExtensionWords = 4) ∧
    readInstruction [0x4E, 0x71, 0x23, 0xFC, 0, 1, 0, 2, 0] 2 = .error (.truncated 8 2 1) := by
  have hc : classify 0x23FC = some (.plain .move .long) := by decide
  constructor
  · have hop : Bytes.readWord16 [0x4E, 0x71, 0x23, 0xFC, 0, 1, 0, 2, 0, 3, 0, 4, 0x4E, 0x75] 2
        = .ok 0x23FC := rfl
    obtain ⟨-, hfound, -⟩ := (readInstruction_of_classify hop).2 _ hc
    obtain ⟨i, hi, -, -, -, hr⟩ := hfound (by decide)
    exact ⟨i, hi, hr.bytes, hr.required⟩
  · have hop : Bytes.readWord16 [0x4E, 0x71, 0x23, 0xFC, 0, 1, 0, 2, 0] 2 = .ok 0x23FC := rfl
    obtain ⟨-, -, hshort⟩ := (readInstruction_of_classify hop).2 _ hc
    exact hshort (by decide)

end AmigaBinary.M68k
