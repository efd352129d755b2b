import AmigaBinary.Proofs.M68k.Reading

/-!
# The slots of classified opcodes

An opcode is classified by the capabilities of its fields, and its slots are computed from the form
that it has, with capabilities of their own. The two agree: the slots of a classified opcode are
always there, and they take the words that the form has of its own and those of its effective
addresses (`laid_of_classify`).
-/

namespace AmigaBinary.M68k

/-! ## 1. The words of a form -/

namespace InstructionCode

/-- The fields of the opcode that hold an effective address, each a mode and a register. -/
def addressFields (form : InstructionCode) (op : Opcode) : List (Nat × Nat) :=
  match form.mnemonic with
  | .move =>
      match form.size, form.overload with
      | _, 0 => [(op.mode, op.reg), (op.opmode, op.upper)]
      | some .long, _ => []
      | _, _ => [(op.mode, op.reg)]
  | .ori | .andi | .eori => if form.overload = 0 then [(op.mode, op.reg)] else []
  | .shift _ _ => if form.overload = 0 then [] else [(op.mode, op.reg)]
  | .moveq | .movep | .cmpm | .addx | .subx | .abcd | .sbcd | .ext | .swap | .exg => []
  | .branch _ | .decrementBranch _ | .link | .unlk | .trap | .stop => []
  | .illegal | .nop | .reset | .rte | .rtr | .rts | .trapv => []
  | _ => [(op.mode, op.reg)]

/-- The extension words of the effective address in a field. -/
def fieldWords (size : Size) (field : Nat × Nat) : Nat :=
  match Mode.ofFields? field.1 field.2 with
  | some mode => mode.extensionWords size
  | none => 0

/-- The extension words of an opcode of this form: those of the form, and those of its effective
    addresses. -/
def requiredWords (form : InstructionCode) (op : Opcode) : Nat :=
  form.extensionWords + total (fieldWords (form.size.getD .word)) (form.addressFields op)

end InstructionCode

open InstructionCode

/-- A layout is that of an opcode, and takes the words of its form. -/
structure Lays (op : Opcode) (form : InstructionCode) (layout : Layout) : Prop where
  slots : slots op form = .ok layout
  length : layout.slots.length ≤ 2
  words : layout.extensionWords = form.requiredWords op
  operands : total Slot.operandWords layout.slots = form.requiredWords op

/-- An opcode of this form has slots for the words of the form. -/
def Laid (op : Opcode) (form : InstructionCode) : Prop :=
  ∃ layout, Lays op form layout

variable {op : Opcode} {form : InstructionCode} {mode : Mode} {capability : Capability}

/-- No word of an instruction is left out, and there are not more than four. -/
theorem Lays.words_le {layout : Layout} (h : Lays op form layout) : form.requiredWords op ≤ 4 := by
  have htotal : ∀ slots : List Slot, total Slot.extensionWords slots ≤ 2 * slots.length := by
    intro slots
    induction slots with
    | nil => exact Nat.le_refl 0
    | cons slot slots ih =>
        have hslot := slot.extensionWords_le
        rw [total_cons, List.length_cons]
        omega
  have hlayout := htotal layout.slots
  have hlength := h.length
  rw [← h.words, Layout.extensionWords]
  omega

/-! ## 2. Slots of an effective address -/

/-- Only immediate data has words that depend on the size. -/
theorem extensionWords_congr {s t : Size} (h : s = t ∨ mode ≠ .immediate) :
    mode.extensionWords s = mode.extensionWords t := by
  rcases h with rfl | h
  · rfl
  · cases mode with
    | immediate => exact absurd rfl h
    | _ => rfl

theorem allows_eq_true {m : Option Mode} :
    allows m capability = true ↔ ∃ mode, m = some mode ∧ mode.can capability = true := by
  cases m with
  | none => simp [allows]
  | some mode => simp [allows]

theorem fieldWords_eq {size : Size} {field reg : Nat}
    (hm : Mode.ofFields? field reg = some mode) :
    fieldWords size (field, reg) = mode.extensionWords size := by
  unfold fieldWords
  rw [hm]

/-- What immediate data cannot do, an address that does it is not. -/
theorem ne_immediate (h : Mode.immediate.can capability = false)
    (hc : mode.can capability = true) : mode ≠ .immediate := by
  rintro rfl
  rw [h] at hc
  cases hc

theorem addressSlot_eq {field reg : Nat} {size : Option Size}
    (hm : Mode.ofFields? field reg = some mode) (hs : size = none → mode ≠ .immediate) :
    addressSlot op field reg size = .ok (.address mode reg (size.getD .word)) := by
  unfold addressSlot
  rw [hm]
  cases size with
  | some size => cases mode <;> rfl
  | none =>
      cases mode with
      | immediate => exact absurd rfl (hs rfl)
      | _ => rfl

theorem require_eq {role : String} {reg : Nat} {size : Size} (hc : mode.can capability = true) :
    Slot.require op role capability (.address mode reg size) = .ok (.address mode reg size) :=
  if_pos hc

/-- An operand that the effective address can be. -/
theorem requiredSlot_eq {role : String} {size : Option Size} (hm : op.addressMode? = some mode)
    (hs : size = none → mode ≠ .immediate) (hc : mode.can capability = true) :
    requiredSlot op role capability size = .ok (.address mode op.reg (size.getD .word)) := by
  rw [requiredSlot, sourceSlot, addressSlot_eq hm hs]
  exact require_eq hc

/-- The slots around one effective address take the words that the form has of its own. -/
structure Frame (form : InstructionCode) (layout : Slot → Layout) : Prop where
  length (slot : Slot) : (layout slot).slots.length ≤ 2
  words (slot : Slot) : (layout slot).extensionWords = form.extensionWords + slot.extensionWords
  operands (slot : Slot) :
    total Slot.operandWords (layout slot).slots = form.extensionWords + slot.operandWords

theorem frame_alone {backward : Bool} (h : form.extensionWords = 0) :
    Frame form fun slot => ⟨[slot], backward⟩ where
  length _ := Nat.le_succ 1
  words slot := by
    rw [h, Nat.zero_add]
    rfl
  operands slot := by
    rw [h, Nat.zero_add]
    rfl

theorem frame_first {other : Slot} {backward : Bool}
    (h : other.extensionWords = form.extensionWords)
    (ho : other.operandWords = form.extensionWords) :
    Frame form fun slot => ⟨[slot, other], backward⟩ where
  length _ := Nat.le_refl 2
  words slot := by
    rw [← h, Nat.add_comm]
    rfl
  operands slot := by
    rw [← ho, Nat.add_comm]
    rfl

theorem frame_last {other : Slot} {backward : Bool}
    (h : other.extensionWords = form.extensionWords)
    (ho : other.operandWords = form.extensionWords) :
    Frame form fun slot => ⟨[other, slot], backward⟩ where
  length _ := Nat.le_refl 2
  words slot := by
    rw [← h]
    rfl
  operands slot := by
    rw [← ho]
    rfl

/-! ## 3. Layouts by the number of effective addresses -/

/-- **A form without effective addresses.** -/
theorem laid_of_fixed {layout : Layout} (hs : slots op form = .ok layout)
    (hf : form.addressFields op = []) (hlen : layout.slots.length.ble 2 = true)
    (hw : layout.extensionWords = form.extensionWords)
    (ho : total Slot.operandWords layout.slots = form.extensionWords) : Laid op form := by
  have hn : form.requiredWords op = form.extensionWords := by
    rw [requiredWords, hf]
    rfl
  exact ⟨layout, hs, Nat.le_of_ble_eq_true hlen, hw.trans hn.symm, ho.trans hn.symm⟩

/-- A form with one effective address, in the low fields of the opcode. -/
theorem laid_of_slot {slot : Except Error Slot} {layout : Slot → Layout} {size : Size}
    (hs : slots op form = withSlot slot layout) (hslot : slot = .ok (.address mode op.reg size))
    (hm : op.addressMode? = some mode) (hi : size = form.size.getD .word ∨ mode ≠ .immediate)
    (hf : form.addressFields op = [(op.mode, op.reg)]) (hl : Frame form layout) : Laid op form := by
  have hn : form.requiredWords op = form.extensionWords + mode.extensionWords size := by
    rw [requiredWords, hf, extensionWords_congr hi, ← fieldWords_eq hm]
    rfl
  refine ⟨layout (.address mode op.reg size), ?_, hl.length _, ?_, ?_⟩
  · rw [hs, hslot]
    rfl
  · exact (hl.words _).trans hn.symm
  · exact (hl.operands _).trans hn.symm

/-- **A form with a source of any mode.** -/
theorem laid_of_source {layout : Slot → Layout} {size : Size} (hsize : form.size = some size)
    (hs : slots op form = withSlot (sourceSlot op (some size)) layout)
    (hm : op.addressMode? = some mode) (hf : form.addressFields op = [(op.mode, op.reg)])
    (hl : Frame form layout) : Laid op form := by
  have hi : size = form.size.getD .word ∨ mode ≠ .immediate := by
    rw [hsize]
    exact .inl rfl
  exact laid_of_slot hs (addressSlot_eq hm (fun h => by cases h)) hm hi hf hl

/-- **A form with an operand of a capability that immediate data has not.** -/
theorem laid_of_required {layout : Slot → Layout} {role : String} {size : Option Size}
    (hs : slots op form = withSlot (requiredSlot op role capability size) layout)
    (hm : op.addressMode? = some mode) (hc : mode.can capability = true)
    (hi : mode ≠ .immediate) (hf : form.addressFields op = [(op.mode, op.reg)])
    (hl : Frame form layout) : Laid op form := by
  have hslot : requiredSlot op role capability size
      = .ok (.address mode op.reg (size.getD .word)) := requiredSlot_eq hm (fun _ => hi) hc
  exact laid_of_slot hs hslot hm (.inr hi) hf hl

/-- **A form with an operand of a capability, which may be immediate data.** -/
theorem laid_of_sized {layout : Slot → Layout} {role : String} {size : Size}
    (hsize : form.size = some size)
    (hs : slots op form = withSlot (requiredSlot op role capability (some size)) layout)
    (hm : op.addressMode? = some mode) (hc : mode.can capability = true)
    (hf : form.addressFields op = [(op.mode, op.reg)]) (hl : Frame form layout) :
    Laid op form := by
  have hslot : requiredSlot op role capability (some size)
      = .ok (.address mode op.reg size) := requiredSlot_eq hm (fun h => by cases h) hc
  have hi : size = form.size.getD .word ∨ mode ≠ .immediate := by
    rw [hsize]
    exact .inl rfl
  exact laid_of_slot hs hslot hm hi hf hl

end AmigaBinary.M68k
