import AmigaBinary.M68k.Instruction
import AmigaBinary.Proofs.Success
import AmigaBinary.Proofs.Words

/-!
# Reading the words of an instruction

How many words a slot takes is known before they are read, and no word is wrong in it. A computation
that takes a number of words (`WordReader.Takes`) succeeds if they are there, whatever they are, and
otherwise fails at the first one that is missing. This is so for each slot (`Slot.takes_read`), and
so for all slots of an instruction (`takes_readSlots`), whose operands are then counted to have the
same number of words. An instruction is decoded by filling its slots (`decode_classified`).
-/

namespace AmigaBinary.M68k

/-! ## 1. Words in bytes -/

theorem next_ofWord16 (w : UInt16) (rest : Bytes) (position : Nat) (words : List UInt16) :
    (WordReader.mk (Bytes.ofWord16 w ++ rest) position words).next
      = .ok (w, ⟨rest, position + 2, words ++ [w]⟩) := by
  show Except.ok (Bytes.word16 (w >>> 8).toUInt8 w.toUInt8, WordReader.mk rest (position + 2)
    (words ++ [Bytes.word16 (w >>> 8).toUInt8 w.toUInt8])) = _
  rw [Bytes.word16_ofWord16]

/-- Bytes start with as many words as fit in them. -/
theorem exists_words {n : Nat} {bytes : Bytes} (h : 2 * n ≤ bytes.length) :
    ∃ (words : List UInt16) (rest : Bytes), words.length = n ∧
      bytes = words.flatMap Bytes.ofWord16 ++ rest := by
  induction n generalizing bytes with
  | zero => exact ⟨[], bytes, rfl, rfl⟩
  | succ n ih =>
      match bytes, h with
      | high :: low :: bytes, h =>
          rw [List.length_cons, List.length_cons] at h
          have hshort : 2 * n ≤ bytes.length := by omega
          obtain ⟨words, rest, hlen, hbytes⟩ := ih hshort
          refine ⟨Bytes.word16 high low :: words, rest, congrArg (· + 1) hlen, ?_⟩
          rw [List.flatMap_cons, Bytes.ofWord16_word16, hbytes]
          rfl
      | [_], h => exact absurd h (by rw [List.length_singleton]; omega)
      | [], h => exact absurd h (by rw [List.length_nil]; omega)

/-! ## 2. Computations that take words -/

namespace WordReader

/-- The error of the first word that is not there. -/
def missing (r : WordReader) : Error :=
  .truncated (r.position + 2 * (r.rest.length / 2)) 2 (r.rest.length % 2)

/-- A computation takes `n` words: it succeeds with any words, and fails without them. -/
structure Takes {α : Type} (n : Nat) (p : α → Prop)
    (f : WordReader → Except Error (α × WordReader)) : Prop where
  found (r : WordReader) (words : List UInt16) (rest : Bytes) (hlen : words.length = n)
    (hrest : r.rest = words.flatMap Bytes.ofWord16 ++ rest) :
    ∃ a, f r = .ok (a, ⟨rest, r.position + 2 * n, r.words ++ words⟩) ∧ p a
  short (r : WordReader) (hlen : r.rest.length < 2 * n) : f r = .error r.missing

variable {α β : Type} {n m k : Nat} {p : α → Prop} {q : β → Prop}
  {f : WordReader → Except Error (α × WordReader)}

theorem Takes.pure {b : β} (h : q b) : Takes 0 q fun r => .ok (b, r) where
  found r words rest hlen hrest := by
    cases List.length_eq_zero_iff.1 hlen
    cases hrest
    exact ⟨b, by rw [List.append_nil]; rfl, h⟩
  short r hlen := absurd hlen (Nat.not_lt_zero _)

/-- **Words are taken one part after the other.** The first word that is missing in the second part
    is the first one that is missing in all. -/
theorem Takes.bind {g : α × WordReader → Except Error (β × WordReader)} (hf : Takes n p f)
    (hg : ∀ a, p a → Takes m q fun r => g (a, r)) (hk : n + m = k) :
    Takes k q fun r => f r >>= g where
  found r words rest hlen hrest := by
    subst hk
    have htake : (words.take n).length = n := by
      rw [List.length_take]
      omega
    have hdrop : (words.drop n).length = m := by
      rw [List.length_drop]
      omega
    rw [← List.take_append_drop n words, List.flatMap_append, List.append_assoc] at hrest
    obtain ⟨a, ha, hp⟩ := hf.found r _ _ htake hrest
    obtain ⟨b, hb, hq⟩ := (hg a hp).found
      ⟨(words.drop n).flatMap Bytes.ofWord16 ++ rest, r.position + 2 * n, r.words ++ words.take n⟩
      _ rest hdrop rfl
    refine ⟨b, bind_eq_ok.2 ⟨_, ha, ?_⟩, hq⟩
    dsimp only at hb ⊢
    rw [hb, List.append_assoc, List.take_append_drop, Nat.add_assoc, ← Nat.mul_add]
  short r hlen := by
    subst hk
    by_cases hfirst : r.rest.length < 2 * n
    · rw [hf.short r hfirst]
      rfl
    · -- the second part starts behind the words of the first, and lacks the same word as both
      obtain ⟨words, rest, hwords, hrest⟩ := exists_words (Nat.le_of_not_lt hfirst)
      obtain ⟨a, ha, hp⟩ := hf.found r words rest hwords hrest
      have hlength : r.rest.length = 2 * n + rest.length := by
        rw [hrest, List.length_append, Bytes.length_flatMap_ofWord16, hwords]
      have hsecond := (hg a hp).short ⟨rest, r.position + 2 * n, r.words ++ words⟩
        (by dsimp only; omega)
      have hmissing : missing ⟨rest, r.position + 2 * n, r.words ++ words⟩ = r.missing := by
        unfold missing
        dsimp only
        rw [hlength]
        congr 1 <;> omega
      rw [ha]
      exact hsecond.trans (congrArg Except.error hmissing)

theorem Takes.map {g : α × WordReader → Except Error (β × WordReader)} (hf : Takes n p f)
    (hg : ∀ a, p a → Takes 0 q fun r => g (a, r)) : Takes n q fun r => f r >>= g :=
  hf.bind hg rfl

theorem takes_next : Takes 1 (fun _ => True) next where
  found r words rest hlen hrest := by
    obtain ⟨w, rfl⟩ := List.length_eq_one_iff.1 hlen
    rw [List.flatMap_singleton] at hrest
    obtain ⟨_, position, seen⟩ := r
    cases hrest
    exact ⟨w, next_ofWord16 w rest position seen, trivial⟩
  short r hlen := by
    obtain ⟨rest, position, seen⟩ := r
    match rest, hlen with
    | [], _ => simp [next, missing]
    | [byte], _ => simp [next, missing]
    | _ :: _ :: _, h =>
        exact absurd h (by rw [List.length_cons, List.length_cons]; omega)

theorem takes_nextLong : Takes 2 (fun _ => True) nextLong :=
  takes_next.bind (fun _ _ => takes_next.map fun _ _ => Takes.pure trivial) rfl

end WordReader

/-! ## 3. Slots -/

open WordReader

theorem takes_readImmediate (size : Size) :
    Takes size.immediateWords (fun ea => ea.extensionWords = size.immediateWords)
      (readImmediate size) := by
  cases size with
  | byte => exact takes_next.map fun _ _ => Takes.pure rfl
  | word => exact takes_next.map fun _ _ => Takes.pure rfl
  | long => exact takes_nextLong.map fun _ _ => Takes.pure rfl

theorem takes_readAddress (mode : Mode) (reg : Nat) (size : Size) :
    Takes (mode.extensionWords size) (fun ea => ea.extensionWords = mode.extensionWords size)
      (readAddress mode reg size) := by
  cases mode with
  | dataRegister | addressRegister | indirect | postIncrement | preDecrement =>
      exact Takes.pure rfl
  | displaced | indexed | absoluteWord | pcDisplaced | pcIndexed =>
      exact takes_next.map fun _ _ => Takes.pure rfl
  | absoluteLong => exact takes_nextLong.map fun _ _ => Takes.pure rfl
  | immediate => exact takes_readImmediate size

/-- The extension words that the operand of a slot is counted to have. -/
def Slot.operandWords : Slot → Nat
  | .fixed operand => operand.extensionWords
  | slot => slot.extensionWords

/-- **A slot takes its words, and its operand is counted to have them.** -/
theorem Slot.takes_read (slot : Slot) :
    Takes slot.extensionWords (fun operand => operand.extensionWords = slot.operandWords)
      slot.read := by
  cases slot with
  | fixed operand => exact Takes.pure rfl
  | immediate size => exact (takes_readImmediate size).map fun _ h => Takes.pure h
  | address mode reg size => exact (takes_readAddress mode reg size).map fun _ h => Takes.pure h
  | registerList reversed => exact takes_next.map fun _ _ => Takes.pure rfl
  | displacement => exact takes_next.map fun _ _ => Takes.pure rfl
  | status => exact takes_next.map fun _ _ => Takes.pure rfl

/-- **Slots take their words in their order.** -/
theorem takes_readSlots (slots : List Slot) :
    Takes (total Slot.extensionWords slots)
      (fun operands => total Operand.extensionWords operands = total Slot.operandWords slots)
      (readSlots slots) := by
  induction slots with
  | nil => exact Takes.pure rfl
  | cons slot slots ih =>
      refine slot.takes_read.bind (fun operand hoperand =>
        ih.map fun operands hoperands => Takes.pure ?_) rfl
      rw [total_cons, total_cons, hoperand, hoperands]

theorem Slot.extensionWords_le (slot : Slot) : slot.extensionWords ≤ 2 := by
  have hsize : ∀ size : Size, size.immediateWords ≤ 2 := by
    intro size
    cases size <;> decide
  cases slot with
  | fixed operand => exact Nat.zero_le 2
  | immediate size => exact hsize size
  | address mode reg size =>
      cases mode with
      | immediate => exact hsize size
      | _ => exact Nat.le_of_ble_eq_true rfl
  | registerList reversed => exact Nat.le_succ 1
  | displacement => exact Nat.le_succ 1
  | status => exact Nat.le_succ 1

/-! ## 4. Instructions -/

/-- **An instruction is decoded by filling its slots** with the words behind the opcode. -/
theorem decode_classified {op : Opcode} {form : InstructionCode} {layout : Layout}
    (hc : classify op = some form) (hs : slots op form = .ok layout) (rest : Bytes)
    (position : Nat) :
    decode ⟨Bytes.ofWord16 op ++ rest, position, []⟩
      = readSlots layout.slots ⟨rest, position + 2, []⟩ >>= fun x =>
        .ok ⟨position, op, some form, if layout.backward then x.1.reverse else x.1, x.2.words⟩ := by
  rw [decode, next_ofWord16]
  simp only [bind, Except.bind, hc, hs]

end AmigaBinary.M68k
