import AmigaBinary.Proofs.M68k.Decoding

/-!
# Instructions and their bytes

What is read depends on the words that are read and on nothing else: not on the place where they
stand, nor on what is behind them (`WordReader.Local`). So the bytes of an instruction make the same
instruction wherever they stand, and code is decoded exactly if it starts with such bytes
(`decode_eq_ok`). Code that is not decoded lacks a word, and this is the only error: either it has
no opcode, or it is the start of a longer instruction (`decode_eq_error`). As no instruction has
more than ten bytes, code that is not decoded has less.
-/

namespace AmigaBinary.M68k

/-! ## 1. Words anywhere -/

namespace WordReader

variable {α β : Type} {f : WordReader → Except Error (α × WordReader)}

/-- A computation takes words from the front of what is left, and answers the same wherever these
    words stand and whatever is behind them. -/
def Local (f : WordReader → Except Error (α × WordReader)) : Prop :=
  ∀ (r : WordReader) (a : α) (next : WordReader), f r = .ok (a, next) →
    ∃ words : List UInt16, r.rest = words.flatMap Bytes.ofWord16 ++ next.rest ∧
      ∀ (behind : Bytes) (position : Nat) (seen : List UInt16),
        f ⟨words.flatMap Bytes.ofWord16 ++ behind, position, seen⟩
          = .ok (a, ⟨behind, position + 2 * words.length, seen ++ words⟩)

theorem Local.pure (b : β) : Local fun r => .ok (b, r) := by
  intro r a next h
  obtain ⟨rfl, rfl⟩ := Prod.mk.inj (Except.ok.inj h)
  refine ⟨[], rfl, fun behind position seen => ?_⟩
  rw [List.append_nil]
  rfl

/-- **Words are taken one part after the other.** -/
theorem Local.bind {g : α × WordReader → Except Error (β × WordReader)} (hf : Local f)
    (hg : ∀ a, Local fun r => g (a, r)) : Local fun r => f r >>= g := by
  intro r b finish h
  obtain ⟨⟨a, next⟩, ha, hb⟩ := bind_eq_ok.1 h
  obtain ⟨words, hrest, hlocal⟩ := hf r a next ha
  obtain ⟨more, hmore, hlocal'⟩ := hg a next b finish hb
  refine ⟨words ++ more, ?_, fun behind position seen => ?_⟩
  · rw [hrest, hmore, List.flatMap_append, List.append_assoc]
  · rw [List.flatMap_append, List.append_assoc]
    refine bind_eq_ok.2 ⟨_, hlocal _ position seen, ?_⟩
    have hsecond := hlocal' behind (position + 2 * words.length) (seen ++ words)
    rw [List.append_assoc, Nat.add_assoc, ← Nat.mul_add, ← List.length_append] at hsecond
    exact hsecond

theorem local_next : Local next := by
  intro r w behind h
  obtain ⟨rest, position, seen⟩ := r
  match rest, h with
  | high :: low :: rest, h =>
      obtain ⟨rfl, rfl⟩ := Prod.mk.inj (Except.ok.inj h)
      refine ⟨[Bytes.word16 high low], ?_, fun behind position seen => ?_⟩
      · rw [List.flatMap_singleton, Bytes.ofWord16_word16]
        rfl
      · rw [List.flatMap_singleton]
        exact next_ofWord16 _ behind position seen

theorem local_nextLong : Local nextLong :=
  local_next.bind fun _ => local_next.bind fun _ => .pure _

end WordReader

open WordReader

theorem local_readImmediate (size : Size) : Local (readImmediate size) := by
  cases size with
  | byte => exact local_next.bind fun _ => .pure _
  | word => exact local_next.bind fun _ => .pure _
  | long => exact local_nextLong.bind fun _ => .pure _

theorem local_readAddress (mode : Mode) (reg : Nat) (size : Size) :
    Local (readAddress mode reg size) := by
  cases mode with
  | dataRegister | addressRegister | indirect | postIncrement | preDecrement => exact .pure _
  | displaced | indexed | absoluteWord | pcDisplaced | pcIndexed =>
      exact local_next.bind fun _ => .pure _
  | absoluteLong => exact local_nextLong.bind fun _ => .pure _
  | immediate => exact local_readImmediate size

theorem Slot.local_read (slot : Slot) : Local slot.read := by
  cases slot with
  | fixed operand => exact .pure _
  | immediate size => exact (local_readImmediate size).bind fun _ => .pure _
  | address mode reg size => exact (local_readAddress mode reg size).bind fun _ => .pure _
  | registerList | displacement | status => exact local_next.bind fun _ => .pure _

theorem local_readSlots (slots : List Slot) : Local (readSlots slots) := by
  induction slots with
  | nil => exact .pure _
  | cons slot slots ih => exact slot.local_read.bind fun _ => ih.bind fun _ => .pure _

/-! ## 2. Instructions anywhere -/

namespace Instruction

/-- The bytes of an instruction make it wherever they stand, whatever is behind them. -/
def Stands (i : Instruction) : Prop :=
  ∀ (behind : Bytes) (place : Nat),
    decode ⟨i.bytes ++ behind, place, []⟩ = .ok { i with offset := place }

theorem bytes_eq (i : Instruction) :
    i.bytes = Bytes.ofWord16 i.opcode ++ i.words.flatMap Bytes.ofWord16 :=
  List.flatMap_cons ..

theorem length_bytes (i : Instruction) : i.bytes.length = i.byteLength := by
  rw [bytes_eq, List.length_append, Bytes.length_ofWord16, Bytes.length_flatMap_ofWord16]
  rfl

end Instruction

open Instruction

variable {code rest : Bytes} {op : Opcode} {form : InstructionCode} {offset : Nat} {i : Instruction}

theorem stands_of_unclassified (h : classify op = none) (offset : Nat) :
    Instruction.Stands ⟨offset, op, none, [], []⟩ := by
  intro behind place
  rw [bytes_eq, List.append_assoc]
  exact decode_of_unclassified h behind place

theorem stands_of_decode (hc : classify op = some form)
    (h : decode ⟨Bytes.ofWord16 op ++ rest, offset, []⟩ = .ok i) :
    i.Stands ∧ i.offset = offset ∧ ∃ behind, Bytes.ofWord16 op ++ rest = i.bytes ++ behind := by
  obtain ⟨layout, hl⟩ := laid_of_classify hc
  rw [decode_classified hc hl.slots] at h
  obtain ⟨⟨operands, finish⟩, hread, hi⟩ := bind_eq_ok.1 h
  obtain ⟨words, hrest, hlocal⟩ := local_readSlots layout.slots _ operands finish hread
  -- the words that the reader has kept are those that it took
  have hwords : finish.words = words := by
    have hsame := hlocal finish.rest (offset + 2) []
    rw [← hrest, hread] at hsame
    exact congrArg (·.2.words) (Except.ok.inj hsame)
  obtain rfl := Except.ok.inj hi
  refine ⟨fun behind place => ?_, rfl, finish.rest, ?_⟩
  · rw [bytes_eq, hwords, List.append_assoc, decode_classified hc hl.slots, hlocal]
    rfl
  · rw [bytes_eq, hwords, List.append_assoc, ← hrest]

/-- Code with room for an opcode starts with one. -/
theorem exists_opcode (h : 2 ≤ code.length) : ∃ op rest, code = Bytes.ofWord16 op ++ rest := by
  match code, h with
  | high :: low :: rest, _ =>
      exact ⟨Bytes.word16 high low, rest, by rw [Bytes.ofWord16_word16]; rfl⟩

theorem decode_of_lone (h : code.length < 2) (offset : Nat) :
    decode ⟨code, offset, []⟩ = .error (.truncated offset 2 code.length) := by
  match code, h with
  | [], _ | [_], _ => rfl

/-- **Code is decoded exactly if it starts with the bytes of an instruction.** -/
theorem decode_eq_ok :
    decode ⟨code, offset, []⟩ = .ok i ↔
      i.Stands ∧ i.offset = offset ∧ ∃ behind, code = i.bytes ++ behind := by
  constructor
  · intro h
    by_cases hlen : 2 ≤ code.length
    · obtain ⟨op, rest, rfl⟩ := exists_opcode hlen
      cases hc : classify op with
      | some form => exact stands_of_decode hc h
      | none =>
          rw [decode_of_unclassified hc] at h
          obtain rfl := Except.ok.inj h
          refine ⟨stands_of_unclassified hc offset, rfl, rest, ?_⟩
          rw [bytes_eq, List.append_assoc]
          rfl
    · rw [decode_of_lone (Nat.lt_of_not_le hlen)] at h
      cases h
  · intro h
    obtain ⟨hstands, rfl, behind, rfl⟩ := h
    exact hstands behind i.offset

/-! ## 3. Instructions that are cut off -/

/-- Code that an opcode is in, but not all words that belong to it. With some bytes behind it, it is
    the start of an instruction that is longer than it. -/
def CutOff (code : Bytes) : Prop :=
  2 ≤ code.length ∧ ∃ (more : Bytes) (i : Instruction),
    readInstruction (code ++ more) 0 = .ok i ∧ code.length < i.byteLength

/-- Code that no instruction can be read from: it has no opcode, or its first instruction is cut
    off. -/
def Unread (code : Bytes) : Prop :=
  code.length < 2 ∨ CutOff code

/-- An opcode that lacks words has them with some bytes more. -/
theorem cutOff_of_short (hc : classify op = some form)
    (hshort : rest.length < 2 * form.requiredWords op) : CutOff (Bytes.ofWord16 op ++ rest) := by
  let more : Bytes := List.replicate (2 * form.requiredWords op - rest.length) 0
  have hlen : (rest ++ more).length = 2 * form.requiredWords op := by
    rw [List.length_append, List.length_replicate]
    omega
  obtain ⟨words, behind, hwords, hbytes⟩ := exists_words (Nat.le_of_eq hlen.symm)
  obtain ⟨operands, hdecode, -⟩ := decode_of_words hc hwords behind 0
  rw [← hbytes, ← List.append_assoc] at hdecode
  have hlength : (Bytes.ofWord16 op ++ rest).length = 2 + rest.length := by
    rw [List.length_append, Bytes.length_ofWord16]
  refine ⟨by omega, more, _, hdecode, ?_⟩
  show _ < 2 + 2 * words.length
  omega

/-- An instruction of at most ten bytes is decoded, or a word is missing. -/
theorem decode_cases (code : Bytes) (offset : Nat) :
    (∃ i, decode ⟨code, offset, []⟩ = .ok i ∧ i.byteLength ≤ 10) ∨
      Unread code ∧ decode ⟨code, offset, []⟩ = .error (missing ⟨code, offset, []⟩) := by
  by_cases hlen : 2 ≤ code.length
  · obtain ⟨op, rest, rfl⟩ := exists_opcode hlen
    cases hc : classify op with
    | none => exact .inl ⟨_, decode_of_unclassified hc rest offset, Nat.le_add_right 2 8⟩
    | some form =>
        by_cases hrest : rest.length < 2 * form.requiredWords op
        · refine .inr ⟨.inr (cutOff_of_short hc hrest), ?_⟩
          unfold missing
          dsimp only
          rw [decode_of_short hc hrest, List.length_append, Bytes.length_ofWord16]
          congr 2 <;> omega
        · obtain ⟨layout, hl⟩ := laid_of_classify hc
          have hfour := hl.words_le
          obtain ⟨words, behind, hwords, rfl⟩ := exists_words (Nat.le_of_not_lt hrest)
          obtain ⟨operands, hdecode, -⟩ := decode_of_words hc hwords behind offset
          refine .inl ⟨_, hdecode, ?_⟩
          show 2 + 2 * words.length ≤ 10
          omega
  · have hshort := Nat.lt_of_not_le hlen
    refine .inr ⟨.inl hshort, ?_⟩
    unfold missing
    dsimp only
    rw [decode_of_lone hshort]
    congr 2 <;> omega

/-- **No instruction is longer than ten bytes.** -/
theorem byteLength_le (h : decode ⟨code, offset, []⟩ = .ok i) : i.byteLength ≤ 10 := by
  rcases decode_cases code offset with ⟨j, hj, hten⟩ | ⟨-, herror⟩
  · obtain rfl := Except.ok.inj (hj.symm.trans h)
    exact hten
  · rw [herror] at h
    cases h

theorem Unread.length_lt (h : Unread code) : code.length < 10 := by
  rcases h with hshort | ⟨-, more, i, hread, hlonger⟩
  · omega
  · exact Nat.lt_of_lt_of_le hlonger (byteLength_le hread)

/-- What is cut off is not decoded: with any bytes behind it, it would be the same instruction. -/
theorem Unread.decode_ne (h : Unread code) : decode ⟨code, offset, []⟩ ≠ .ok i := by
  intro hi
  rcases h with hshort | ⟨-, more, j, hread, hlonger⟩
  · rw [decode_of_lone hshort] at hi
    cases hi
  · obtain ⟨hstands, -, behind, rfl⟩ := decode_eq_ok.1 hi
    have hsame : readInstruction (i.bytes ++ behind ++ more) 0 = .ok { i with offset := 0 } := by
      rw [List.append_assoc]
      exact hstands (behind ++ more) 0
    obtain rfl := Except.ok.inj (hread.symm.trans hsame)
    rw [List.length_append, length_bytes] at hlonger
    exact absurd hlonger (Nat.not_lt_of_le (Nat.le_add_right _ _))

/-- **Code is not decoded exactly if it has no opcode or is the start of a longer instruction**, and
    the error is always that of the first word that is missing. -/
theorem decode_eq_error {e : Error} :
    decode ⟨code, offset, []⟩ = .error e ↔
      Unread code ∧ e = missing ⟨code, offset, []⟩ := by
  rcases decode_cases code offset with ⟨i, hi, -⟩ | ⟨hunread, herror⟩
  · rw [hi]
    refine iff_of_false (fun h => by cases h) fun h => h.1.decode_ne hi
  · rw [herror, Except.error.injEq]
    exact ⟨fun h => ⟨hunread, h.symm⟩, fun h => h.2.symm⟩

end AmigaBinary.M68k
