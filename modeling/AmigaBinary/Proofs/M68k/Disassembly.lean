import AmigaBinary.Proofs.M68k.Decoding
import AmigaBinary.Proofs.M68k.Notation

/-!
# What the text of an instruction tells

The processor ignores some bits of the words behind an opcode: the high byte of the word with an
immediate byte, and three bits of the word with an index register. All other bits are significant,
and the text of an instruction tells them (`text_eq_iff`). For each slot, the operands are written
alike if and only if the words agree in the significant bits (`Slot.Makes.parts_eq_iff`), and the
operand that is read is made of the words that are read (`WordReader.Gathers`).
-/

namespace AmigaBinary

/-! ## 1. Signed readings -/

namespace Bytes

theorem signed8_inj {v w : UInt8} : signed8 v = signed8 w ↔ v = w := by
  have hv := v.toNat_lt
  have hw := w.toNat_lt
  rw [← UInt8.toNat_inj]
  unfold signed8
  split <;> split <;> omega

theorem signed16_inj {v w : UInt16} : signed16 v = signed16 w ↔ v = w := by
  have hv := v.toNat_lt
  have hw := w.toNat_lt
  rw [← UInt16.toNat_inj]
  unfold signed16
  split <;> split <;> omega

/-- A word that is extended to 32 bits is told from them. -/
theorem signed16_extended_inj {v w : UInt16} :
    (signed16 v % 0x100000000).toNat = (signed16 w % 0x100000000).toNat ↔ v = w := by
  have hv := v.toNat_lt
  have hw := w.toNat_lt
  rw [← UInt16.toNat_inj]
  unfold signed16
  split <;> split <;> omega

theorem signed32_inj {v w : UInt32} : signed32 v = signed32 w ↔ v = w := by
  have hv := v.toNat_lt
  have hw := w.toNat_lt
  rw [← UInt32.toNat_inj]
  unfold signed32
  split <;> split <;> omega

theorem long_inj {high low high' low' : UInt16} :
    long high low = long high' low' ↔ high = high' ∧ low = low' := by
  have hlow := low.toNat_lt
  have hlow' := low'.toNat_lt
  rw [← UInt32.toNat_inj, toNat_long, toNat_long, ← UInt16.toNat_inj, ← UInt16.toNat_inj]
  omega

end Bytes

namespace M68k

/-! ## 2. Significant bits -/

/-- Two lists of words agree in the bits of a list of masks, word by word. -/
def AgreeIn : List UInt16 → List UInt16 → List UInt16 → Prop
  | [], [], [] => True
  | mask :: masks, v :: vs, w :: ws => mask &&& v = mask &&& w ∧ AgreeIn masks vs ws
  | _, _, _ => False

theorem agreeIn_append {masks masks' vs vs' ws ws' : List UInt16}
    (hv : vs.length = masks.length) (hw : ws.length = masks.length) :
    AgreeIn (masks ++ masks') (vs ++ vs') (ws ++ ws')
      ↔ AgreeIn masks vs ws ∧ AgreeIn masks' vs' ws' := by
  induction masks generalizing vs ws with
  | nil =>
      rw [List.length_eq_zero_iff.1 hv, List.length_eq_zero_iff.1 hw]
      show AgreeIn masks' vs' ws' ↔ True ∧ _
      rw [true_and]
  | cons mask masks ih =>
      obtain ⟨v, vs, rfl⟩ := List.exists_cons_of_length_eq_add_one hv
      obtain ⟨w, ws, rfl⟩ := List.exists_cons_of_length_eq_add_one hw
      show _ ∧ AgreeIn (masks ++ masks') (vs ++ vs') (ws ++ ws') ↔ (_ ∧ _) ∧ _
      rw [ih (Nat.succ.inj hv) (Nat.succ.inj hw), and_assoc]

/-- Every bit of a word. -/
theorem agreeIn_word {v w : UInt16} : AgreeIn [0xFFFF] [v] [w] ↔ v = w := by
  have hall : ∀ u : UInt16, 0xFFFF &&& u = u := by
    intro u
    rw [← UInt16.toNat_inj, UInt16.toNat_and, Nat.and_comm]
    exact Nat.and_two_pow_sub_one_of_lt_two_pow (n := 16) u.toNat_lt
  show _ ∧ True ↔ _
  rw [and_true, hall, hall]

theorem agreeIn_words {v v' w w' : UInt16} :
    AgreeIn [0xFFFF, 0xFFFF] [v, v'] [w, w'] ↔ v = w ∧ v' = w' := by
  have hsplit : AgreeIn ([0xFFFF] ++ [0xFFFF]) ([v] ++ [v']) ([w] ++ [w'])
      ↔ AgreeIn [0xFFFF] [v] [w] ∧ AgreeIn [0xFFFF] [v'] [w'] := agreeIn_append rfl rfl
  rwa [agreeIn_word, agreeIn_word] at hsplit

theorem lowByteSigned_inj {v w : UInt16} :
    lowByteSigned v = lowByteSigned w ↔ v.toNat % 0x100 = w.toNat % 0x100 := by
  rw [lowByteSigned, lowByteSigned, Bytes.signed8_inj, ← UInt8.toNat_inj, Bytes.toNat_low,
    Bytes.toNat_low]

/-- The low byte of a word. -/
theorem agreeIn_lowByte {v w : UInt16} :
    AgreeIn [0x00FF] [v] [w] ↔ lowByteSigned v = lowByteSigned w := by
  have hlow : ∀ u : UInt16, (0x00FF &&& u).toNat = u.toNat % 0x100 := by
    intro u
    rw [UInt16.toNat_and, Nat.and_comm]
    exact Nat.and_two_pow_sub_one_eq_mod u.toNat 8
  show _ ∧ True ↔ _
  rw [and_true, ← UInt16.toNat_inj, hlow, hlow, lowByteSigned_inj]

/-- The bits of a brief extension word that name the index register, and its low byte. -/
theorem toNat_brief (u : UInt16) :
    (0xF8FF &&& u).toNat = u.toNat / 0x800 * 0x800 + u.toNat % 0x100 := by
  have hu := u.toNat_lt
  rw [UInt16.toNat_and]
  have hlow : (0xF8FF &&& u.toNat) % 2 ^ 8 = u.toNat % 0x100 := by
    rw [Nat.and_mod_two_pow, Nat.and_comm]
    exact Nat.and_two_pow_sub_one_of_lt_two_pow (n := 8) (Nat.mod_lt _ (by decide))
  have hmiddle : (0xF8FF &&& u.toNat) / 2 ^ 8 % 2 ^ 3 = 0 := by
    rw [Nat.and_div_two_pow, Nat.and_mod_two_pow]
    exact Nat.zero_and _
  have hhigh : (0xF8FF &&& u.toNat) / 2 ^ 11 = u.toNat / 0x800 := by
    rw [Nat.and_div_two_pow, Nat.and_comm]
    exact Nat.and_two_pow_sub_one_of_lt_two_pow (n := 5) (by omega)
  show (0xF8FF &&& u.toNat) = _
  omega

/-- **The significant bits of a brief extension word** are its displacement and its register. -/
theorem agreeIn_brief {v w : UInt16} : AgreeIn [0xF8FF] [v] [w] ↔
    lowByteSigned v = lowByteSigned w ∧ IndexRegister.ofExtension v = .ofExtension w := by
  have hv := v.toNat_lt
  have hw := w.toNat_lt
  have hregister : IndexRegister.ofExtension v = .ofExtension w
      ↔ v.toNat / 0x800 = w.toNat / 0x800 := by
    unfold IndexRegister.ofExtension
    rw [IndexRegister.mk.injEq, decide_eq_decide, decide_eq_decide]
    omega
  show _ ∧ True ↔ _
  rw [and_true, ← UInt16.toNat_inj, toNat_brief, toNat_brief, lowByteSigned_inj, hregister]
  omega

/-- The significant bits of the words with immediate data. -/
def Size.significant : Size → List UInt16
  | .byte => [0x00FF]
  | .word => [0xFFFF]
  | .long => [0xFFFF, 0xFFFF]

/-- The significant bits of the words of an effective address. -/
def Mode.significant (size : Size) : Mode → List UInt16
  | .dataRegister | .addressRegister | .indirect | .postIncrement | .preDecrement => []
  | .displaced | .pcDisplaced | .absoluteWord => [0xFFFF]
  | .indexed | .pcIndexed => [0xF8FF]
  | .absoluteLong => [0xFFFF, 0xFFFF]
  | .immediate => size.significant

/-- The significant bits of the words of a slot. -/
def Slot.significant : Slot → List UInt16
  | .fixed _ => []
  | .immediate size => size.significant
  | .address mode _ size => mode.significant size
  | .registerList _ | .displacement | .status => [0xFFFF]

/-- The significant bits of the words behind an opcode. -/
def significantBits (op : Opcode) : List UInt16 :=
  match classify op with
  | none => []
  | some form =>
    match slots op form with
    | .ok layout => layout.slots.flatMap Slot.significant
    | .error _ => []

/-! ## 3. Operands made of words -/

/-- Words make immediate data. -/
inductive Size.Makes : Size → List UInt16 → Int → Prop
  | byte (w : UInt16) : Makes .byte [w] (lowByteSigned w)
  | word (w : UInt16) : Makes .word [w] (Bytes.signed16 w)
  | long (high low : UInt16) : Makes .long [high, low] (Bytes.signed32 (Bytes.long high low))

/-- Words make an effective address. -/
inductive Mode.Makes (reg : Nat) (size : Size) : Mode → List UInt16 → EffectiveAddress → Prop
  | dataRegister : Makes reg size .dataRegister [] (.dataRegister reg)
  | addressRegister : Makes reg size .addressRegister [] (.addressRegister reg)
  | indirect : Makes reg size .indirect [] (.indirect reg)
  | postIncrement : Makes reg size .postIncrement [] (.postIncrement reg)
  | preDecrement : Makes reg size .preDecrement [] (.preDecrement reg)
  | displaced (w : UInt16) : Makes reg size .displaced [w] (.displaced reg (Bytes.signed16 w))
  | indexed (w : UInt16) :
      Makes reg size .indexed [w] (.indexed reg (lowByteSigned w) (.ofExtension w))
  | pcDisplaced (w : UInt16) : Makes reg size .pcDisplaced [w] (.pcDisplaced (Bytes.signed16 w))
  | pcIndexed (w : UInt16) :
      Makes reg size .pcIndexed [w] (.pcIndexed (lowByteSigned w) (.ofExtension w))
  | absoluteWord (w : UInt16) : Makes reg size .absoluteWord [w] (.absoluteWord (Bytes.signed16 w))
  | absoluteLong (high low : UInt16) :
      Makes reg size .absoluteLong [high, low] (.absoluteLong (Bytes.long high low))
  | immediate {words : List UInt16} {value : Int} (h : size.Makes words value) :
      Makes reg size .immediate words (.immediate size value)

/-- Words make the operand of a slot. -/
inductive Slot.Makes : Slot → List UInt16 → Operand → Prop
  | fixed (operand : Operand) : Makes (.fixed operand) [] operand
  | immediate {size : Size} {words : List UInt16} {value : Int} (h : size.Makes words value) :
      Makes (.immediate size) words (.address (.immediate size value))
  | address {mode : Mode} {reg : Nat} {size : Size} {words : List UInt16} {ea : EffectiveAddress}
      (h : mode.Makes reg size words ea) : Makes (.address mode reg size) words (.address ea)
  | registerList (reversed : Bool) (w : UInt16) :
      Makes (.registerList reversed) [w] (.registerList (if reversed then reverseMask w else w))
  | displacement (w : UInt16) : Makes .displacement [w] (.displacement .word (Bytes.signed16 w))
  | status (w : UInt16) : Makes .status [w] (.address (.immediate .word w.toNat))

/-! ## 4. Text and significant bits -/

theorem Size.Makes.length_eq {size : Size} {words : List UInt16} {value : Int}
    (h : size.Makes words value) : words.length = size.significant.length := by
  cases h <;> rfl

theorem Slot.Makes.length_eq {slot : Slot} {words : List UInt16} {operand : Operand}
    (h : slot.Makes words operand) : words.length = slot.significant.length := by
  cases h with
  | immediate h => exact h.length_eq
  | address h =>
      cases h with
      | immediate h => exact h.length_eq
      | _ => rfl
  | _ => rfl

/-- Immediate data tells the significant bits of its words. -/
theorem Size.Makes.value_eq_iff {size : Size} {vs ws : List UInt16} {a b : Int}
    (hv : size.Makes vs a) (hw : size.Makes ws b) : a = b ↔ AgreeIn size.significant vs ws := by
  cases hv with
  | byte v => cases hw with | byte w => exact agreeIn_lowByte.symm
  | word v => cases hw with | word w => exact Bytes.signed16_inj.trans agreeIn_word.symm
  | long high low =>
      cases hw with
      | long high' low' =>
          exact (Bytes.signed32_inj.trans Bytes.long_inj).trans agreeIn_words.symm

/-- **The text of an effective address tells the significant bits of its words.** -/
theorem Mode.Makes.parts_eq_iff {mode : Mode} {reg : Nat} {size : Size} {vs ws : List UInt16}
    {a b : EffectiveAddress} (hv : mode.Makes reg size vs a) (hw : mode.Makes reg size ws b) :
    a.parts = b.parts ↔ AgreeIn (mode.significant size) vs ws := by
  have hindex : ∀ w, (IndexRegister.ofExtension w).reg < 8 := fun w =>
    Nat.mod_lt _ (by decide)
  cases hv with
  | dataRegister | addressRegister | indirect | postIncrement | preDecrement =>
      cases hw
      exact iff_of_true rfl trivial
  | displaced v =>
      cases hw with
      | displaced w =>
          simp [EffectiveAddress.parts, Mode.significant, signedHex_inj, Bytes.signed16_inj,
            agreeIn_word]
  | indexed v =>
      cases hw with
      | indexed w =>
          simp [EffectiveAddress.parts, Mode.significant, signedHex_inj, agreeIn_brief,
            indexText_inj, hindex]
  | pcDisplaced v =>
      cases hw with
      | pcDisplaced w =>
          simp [EffectiveAddress.parts, Mode.significant, signedHex_inj, Bytes.signed16_inj,
            agreeIn_word]
  | pcIndexed v =>
      cases hw with
      | pcIndexed w =>
          simp [EffectiveAddress.parts, Mode.significant, signedHex_inj, agreeIn_brief,
            indexText_inj, hindex]
  | absoluteWord v =>
      cases hw with
      | absoluteWord w =>
          simp [EffectiveAddress.parts, EffectiveAddress.text, Mode.significant, Text.hex_inj,
            agreeIn_word, Bytes.signed16_extended_inj]
  | absoluteLong high low =>
      cases hw with
      | absoluteLong high' low' =>
          simp [EffectiveAddress.parts, EffectiveAddress.text, Mode.significant, Text.hex_inj,
            agreeIn_words, UInt32.toNat_inj, Bytes.long_inj]
  | immediate hv =>
      cases hw with
      | immediate hw =>
          simp [EffectiveAddress.parts, EffectiveAddress.text, Mode.significant,
            immediateText_inj, hv.value_eq_iff hw]

/-- **The text of an operand tells the significant bits of its words.** -/
theorem Slot.Makes.parts_eq_iff {slot : Slot} {vs ws : List UInt16} {a b : Operand}
    (hv : slot.Makes vs a) (hw : slot.Makes ws b) :
    a.parts = b.parts ↔ AgreeIn slot.significant vs ws := by
  cases hv with
  | fixed => cases hw; exact iff_of_true rfl trivial
  | immediate hv =>
      cases hw with
      | immediate hw =>
          have hmode : Mode.Makes 0 _ _ _ _ := .immediate hv
          exact hmode.parts_eq_iff (.immediate hw)
  | address hv => cases hw with | address hw => exact hv.parts_eq_iff hw
  | registerList reversed v =>
      cases hw with
      | registerList _ w =>
          cases reversed <;>
            simp [Operand.parts, Operand.text, Slot.significant, registerListText_inj,
              reverseMask_inj, agreeIn_word]
  | displacement v =>
      cases hw with
      | displacement w =>
          simp [Operand.parts, Operand.text, Slot.significant, signedHex_inj, Bytes.signed16_inj,
            agreeIn_word]
  | status v =>
      cases hw with
      | status w =>
          simp only [Operand.parts, EffectiveAddress.parts, EffectiveAddress.text, List.cons.injEq,
            and_true, immediateText_inj, Int.natCast_inj, UInt16.toNat_inj, Slot.significant,
            agreeIn_word]

/-- How many parts an operand has does not depend on the words. -/
theorem Slot.Makes.length_parts {slot : Slot} {vs ws : List UInt16} {a b : Operand}
    (hv : slot.Makes vs a) (hw : slot.Makes ws b) : a.parts.length = b.parts.length := by
  cases hv with
  | fixed => cases hw; rfl
  | address hv =>
      cases hw with
      | address hw => cases hv <;> cases hw <;> simp [Operand.parts, EffectiveAddress.parts]
  | _ => cases hw; simp [Operand.parts, EffectiveAddress.parts]

/-! ## 5. Operands of an instruction -/

/-- Words make the operands of slots, one slot after the other. -/
inductive MakesAll : List Slot → List UInt16 → List Operand → Prop
  | nil : MakesAll [] [] []
  | cons {slot : Slot} {slots : List Slot} {words more : List UInt16} {operand : Operand}
      {operands : List Operand} (h : slot.Makes words operand)
      (rest : MakesAll slots more operands) :
      MakesAll (slot :: slots) (words ++ more) (operand :: operands)

theorem MakesAll.length_parts {slots : List Slot} {vs ws : List UInt16} {as bs : List Operand}
    (hv : MakesAll slots vs as) (hw : MakesAll slots ws bs) :
    as.map (fun operand => operand.parts.length) = bs.map fun operand => operand.parts.length := by
  induction hv generalizing ws bs with
  | nil => cases hw; rfl
  | cons h rest ih =>
      cases hw with
      | cons h' rest' => rw [List.map_cons, List.map_cons, h.length_parts h', ih rest']

/-- **The operands of slots tell the significant bits of all words.** -/
theorem MakesAll.parts_eq_iff {slots : List Slot} {vs ws : List UInt16} {as bs : List Operand}
    (hv : MakesAll slots vs as) (hw : MakesAll slots ws bs) :
    as.map Operand.parts = bs.map Operand.parts
      ↔ AgreeIn (slots.flatMap Slot.significant) vs ws := by
  induction hv generalizing ws bs with
  | nil => cases hw; exact iff_of_true rfl trivial
  | cons h rest ih =>
      cases hw with
      | cons h' rest' =>
          rw [List.map_cons, List.map_cons, List.cons.injEq, List.flatMap_cons,
            agreeIn_append h.length_eq h'.length_eq, h.parts_eq_iff h', ih rest']

/-- **The text of an instruction tells its operands.** -/
theorem instructionText_inj {mnemonic : Mnemonic} {size : Option Size} {as bs : List Operand}
    (hlen : as.map (fun operand => operand.parts.length)
      = bs.map fun operand => operand.parts.length) :
    instructionText mnemonic size as = instructionText mnemonic size bs
      ↔ as.map Operand.parts = bs.map Operand.parts := by
  unfold instructionText
  rw [String.append_right_inj]
  cases as with
  | nil => rw [List.map_eq_nil_iff.1 hlen.symm]; simp
  | cons a as =>
      cases bs with
      | nil => cases hlen
      | cons b bs =>
          dsimp only
          rw [String.append_right_inj]
          exact operandTexts_inj hlen

/-! ## 6. Reading the words -/

namespace WordReader

variable {α β : Type} {p : List UInt16 → α → Prop} {q : List UInt16 → β → Prop}

/-- What a computation answers with is made of the words that it reads. -/
def Gathers (p : List UInt16 → α → Prop) (f : WordReader → Except Error (α × WordReader)) : Prop :=
  ∀ (r : WordReader) (a : α) (next : WordReader), f r = .ok (a, next) →
    ∃ words, p words a ∧ next.words = r.words ++ words

theorem Gathers.pure {b : β} (h : q [] b) : Gathers q fun r => .ok (b, r) := by
  intro r a next hr
  cases hr
  exact ⟨[], h, (List.append_nil _).symm⟩

/-- **Words are gathered one part after the other.** -/
theorem Gathers.bind {f : WordReader → Except Error (α × WordReader)}
    {g : α × WordReader → Except Error (β × WordReader)} (hf : Gathers p f)
    (hg : ∀ words a, p words a → Gathers (fun more => q (words ++ more)) fun r => g (a, r)) :
    Gathers q fun r => f r >>= g := by
  intro r b finish hr
  obtain ⟨⟨a, next⟩, ha, hb⟩ := bind_eq_ok.1 hr
  obtain ⟨words, hp, hwords⟩ := hf r a next ha
  obtain ⟨more, hq, hmore⟩ := hg words a hp next b finish hb
  exact ⟨words ++ more, hq, by rw [hmore, hwords, List.append_assoc]⟩

theorem gathers_next : Gathers (fun words w => words = [w]) next := by
  intro r w behind hr
  unfold next at hr
  split at hr
  · cases hr
    exact ⟨_, rfl, rfl⟩
  · cases hr

theorem Gathers.of_word {g : UInt16 × WordReader → Except Error (β × WordReader)}
    (hg : ∀ w, Gathers (fun more => q (w :: more)) fun r => g (w, r)) :
    Gathers q fun r => r.next >>= g :=
  gathers_next.bind fun _ w h => h ▸ hg w

theorem Gathers.of_long {g : UInt32 × WordReader → Except Error (β × WordReader)}
    (hg : ∀ high low, Gathers (fun more => q (high :: low :: more))
      fun r => g (Bytes.long high low, r)) : Gathers q fun r => r.nextLong >>= g := by
  have hlong : Gathers (fun words x => ∃ high low, words = [high, low] ∧ x = Bytes.long high low)
      nextLong := .of_word fun high => .of_word fun low => .pure ⟨high, low, rfl, rfl⟩
  refine hlong.bind fun words x h => ?_
  obtain ⟨high, low, rfl, rfl⟩ := h
  exact hg high low

end WordReader

open WordReader

theorem Size.gathers_read (size : Size) :
    Gathers (fun words ea => ∃ value, ea = .immediate size value ∧ size.Makes words value)
      (readImmediate size) := by
  cases size with
  | byte => exact .of_word fun w => .pure ⟨_, rfl, .byte w⟩
  | word => exact .of_word fun w => .pure ⟨_, rfl, .word w⟩
  | long => exact .of_long fun high low => .pure ⟨_, rfl, .long high low⟩

theorem Mode.gathers_read (mode : Mode) (reg : Nat) (size : Size) :
    Gathers (mode.Makes reg size) (readAddress mode reg size) := by
  cases mode with
  | dataRegister => exact .pure .dataRegister
  | addressRegister => exact .pure .addressRegister
  | indirect => exact .pure .indirect
  | postIncrement => exact .pure .postIncrement
  | preDecrement => exact .pure .preDecrement
  | displaced => exact .of_word fun w => .pure (.displaced w)
  | indexed => exact .of_word fun w => .pure (.indexed w)
  | absoluteWord => exact .of_word fun w => .pure (.absoluteWord w)
  | absoluteLong => exact .of_long fun high low => .pure (.absoluteLong high low)
  | pcDisplaced => exact .of_word fun w => .pure (.pcDisplaced w)
  | pcIndexed => exact .of_word fun w => .pure (.pcIndexed w)
  | immediate =>
      intro r ea next h
      obtain ⟨words, ⟨value, rfl, hmakes⟩, hwords⟩ := size.gathers_read r ea next h
      exact ⟨words, .immediate hmakes, hwords⟩

/-- **A slot is filled with an operand made of the words that are read.** -/
theorem Slot.gathers_read (slot : Slot) : Gathers slot.Makes slot.read := by
  cases slot with
  | fixed operand => exact .pure (.fixed operand)
  | immediate size =>
      refine size.gathers_read.bind fun words ea h => ?_
      obtain ⟨value, rfl, hmakes⟩ := h
      refine .pure ?_
      rw [List.append_nil]
      exact .immediate hmakes
  | address mode reg size =>
      refine (mode.gathers_read reg size).bind fun words ea hmakes => .pure ?_
      rw [List.append_nil]
      exact .address hmakes
  | registerList reversed => exact .of_word fun w => .pure (.registerList reversed w)
  | displacement => exact .of_word fun w => .pure (.displacement w)
  | status => exact .of_word fun w => .pure (.status w)

theorem gathers_readSlots (slots : List Slot) : Gathers (MakesAll slots) (readSlots slots) := by
  induction slots with
  | nil => exact .pure .nil
  | cons slot slots ih =>
      refine slot.gathers_read.bind fun words operand hmakes =>
        ih.bind fun more operands hmore => .pure ?_
      rw [List.append_nil]
      exact .cons hmakes hmore

/-! ## 7. Instructions -/

variable {code other : Bytes} {offset place : Nat} {op : Opcode} {i j : Instruction}

theorem readInstruction_eq_decode (hop : Bytes.readWord16 code offset = .ok op) :
    ∃ rest, readInstruction code offset = decode ⟨Bytes.ofWord16 op ++ rest, offset, []⟩ := by
  obtain ⟨rest, hrest⟩ := Bytes.readWord16_eq_ok.1 hop
  exact ⟨rest, by rw [readInstruction, WordReader.start, hrest]⟩

/-- An instruction that is classified has operands made of its words. -/
theorem makesAll_of_readInstruction {form : InstructionCode} {layout : Layout}
    (hop : Bytes.readWord16 code offset = .ok op) (hc : classify op = some form)
    (hs : slots op form = .ok layout) (hi : readInstruction code offset = .ok i) :
    ∃ operands, MakesAll layout.slots i.words operands ∧
      i.text = instructionText form.mnemonic form.displaySize
        (if layout.backward then operands.reverse else operands) := by
  obtain ⟨rest, hdecode⟩ := readInstruction_eq_decode hop
  rw [hdecode, decode_classified hc hs] at hi
  obtain ⟨⟨operands, finish⟩, hread, hi⟩ := bind_eq_ok.1 hi
  obtain ⟨words, hmakes, hwords⟩ := gathers_readSlots _ _ _ _ hread
  cases hi
  rw [List.nil_append] at hwords
  exact ⟨operands, hwords ▸ hmakes, rfl⟩

/-- **The text of an instruction tells the words behind its opcode**, in all bits that the processor
    does not ignore. -/
theorem text_eq_iff (hop : Bytes.readWord16 code offset = .ok op)
    (hop' : Bytes.readWord16 other place = .ok op) (hi : readInstruction code offset = .ok i)
    (hj : readInstruction other place = .ok j) :
    i.text = j.text ↔ AgreeIn (significantBits op) i.words j.words := by
  cases hc : classify op with
  | none =>
      obtain ⟨rest, hdecode⟩ := readInstruction_eq_decode hop
      obtain ⟨rest', hdecode'⟩ := readInstruction_eq_decode hop'
      rw [hdecode, decode_of_unclassified hc] at hi
      rw [hdecode', decode_of_unclassified hc] at hj
      cases hi
      cases hj
      have hbits : significantBits op = [] := by
        unfold significantBits
        rw [hc]
      rw [hbits]
      exact iff_of_true rfl trivial
  | some form =>
      obtain ⟨layout, hl⟩ := laid_of_classify hc
      have hbits : significantBits op = layout.slots.flatMap Slot.significant := by
        unfold significantBits
        rw [hc]
        dsimp only
        rw [hl.slots]
      obtain ⟨as, hv, hi⟩ := makesAll_of_readInstruction hop hc hl.slots hi
      obtain ⟨bs, hw, hj⟩ := makesAll_of_readInstruction hop' hc hl.slots hj
      have hlen := hv.length_parts hw
      rw [hi, hj, hbits, ← hv.parts_eq_iff hw]
      cases layout.backward with
      | false => exact instructionText_inj hlen
      | true =>
          rw [if_pos rfl, if_pos rfl, instructionText_inj (by
            rw [List.map_reverse, List.map_reverse, hlen]), List.map_reverse, List.map_reverse,
            List.reverse_inj]

/-- A byte is combined with a byte in memory. The words differ in the bits that are ignored. -/
theorem text_eq_iff_andi :
    ∃ i j, readInstruction [0x02, 0x30, 0x55, 0x12, 0x17, 0x04] 0 = .ok i ∧
      readInstruction [0x4E, 0x71, 0x02, 0x30, 0xAA, 0x12, 0x10, 0x04] 2 = .ok j ∧
      significantBits 0x0230 = [0x00FF, 0xF8FF] ∧ i.words = [0x5512, 0x1704] ∧
      j.words = [0xAA12, 0x1004] ∧ i.text = j.text ∧ i.text = "ANDI.B #$12,($4,A0,D1)" := by
  have hop : Bytes.readWord16 [0x02, 0x30, 0x55, 0x12, 0x17, 0x04] 0 = .ok 0x0230 := rfl
  have hop' : Bytes.readWord16 [0x4E, 0x71, 0x02, 0x30, 0xAA, 0x12, 0x10, 0x04] 2 = .ok 0x0230 :=
    rfl
  have hbits : significantBits 0x0230 = [0x00FF, 0xF8FF] := by decide
  refine ⟨_, _, rfl, rfl, hbits, rfl, rfl, (text_eq_iff hop hop' rfl rfl).2 ?_, by decide +kernel⟩
  rw [hbits]
  exact ⟨by decide, by decide, trivial⟩

end M68k

end AmigaBinary
