import AmigaBinary.Proofs.M68k.Slots
import AmigaBinary.Routine.Link

/-!
# The instructions of linked code

The linker builds its instructions from constants, and the decoder takes opcodes apart by their
fields. Each word that the linker writes is an opcode of the form it is meant to be, with the
operands it is meant to have: word branches (`decode_branchWord`), loads of an address relative to
the program counter (`decode_loadRelative`), jumps and calls through a register or to an absolute
address (`decode_jumpIndirect`, `decode_jumpAbsolute`), and NOP (`decode_nop`).
-/

namespace AmigaBinary.Routine

open M68k

/-! ## 1. Decoding by slots -/

/-- **What an opcode decodes to**, given its form, its slots and what the words behind it fill the
    slots with. -/
theorem decode_of_slots {op : Opcode} {code : InstructionCode} {layout : List Slot} {rest : Bytes}
    {position : Nat} {operands : List Operand} {finish : WordReader}
    (hc : classify op = some code) (hs : slots op code = .ok (forward layout))
    (hr : readSlots layout ⟨rest, position + 2, []⟩ = .ok (operands, finish)) :
    decode ⟨Bytes.ofWord16 op ++ rest, position, []⟩
      = .ok ⟨position, op, some code, operands, finish.words⟩ := by
  have hread : readSlots (forward layout).slots ⟨rest, position + 2, []⟩
      = .ok (operands, finish) := hr
  rw [decode_classified hc hs, hread]
  rfl

/-! ## 2. Registers in opcodes -/

/-- What holds of all eight registers holds of a register. -/
theorem of_register {p : UInt8 → Prop} (h : ∀ n : Fin 8, p (UInt8.ofNat n)) {reg : UInt8}
    (hr : reg < 8) : p reg :=
  Bytes.of_lt h (UInt8.lt_iff_toNat_lt.1 hr)

theorem classify_loadRelative {reg : UInt8} (hr : reg < 8) :
    classify (loadRelative reg) = some (.plain .lea .long) :=
  of_register (p := fun reg => classify (loadRelative reg) = some (.plain .lea .long))
    (by decide) hr

theorem fields_loadRelative {reg : UInt8} (hr : reg < 8) :
    Opcode.mode (loadRelative reg) = 7 ∧ Opcode.reg (loadRelative reg) = 2 ∧
      Opcode.upper (loadRelative reg) = reg.toNat :=
  of_register (p := fun reg => Opcode.mode (loadRelative reg) = 7 ∧
    Opcode.reg (loadRelative reg) = 2 ∧ Opcode.upper (loadRelative reg) = reg.toNat) (by decide) hr

/-- The form of a jump or of a call. -/
def jumpCode (call : Bool) : InstructionCode :=
  .sizeless (if call then .jsr else .jmp)

theorem classify_jumpIndirect (call : Bool) {reg : UInt8} (hr : reg < 8) :
    classify (jumpIndirect call reg) = some (jumpCode call) := by
  cases call
  · exact of_register (p := fun reg => classify (jumpIndirect false reg) = some (jumpCode false))
      (by decide) hr
  · exact of_register (p := fun reg => classify (jumpIndirect true reg) = some (jumpCode true))
      (by decide) hr

theorem fields_jumpIndirect (call : Bool) {reg : UInt8} (hr : reg < 8) :
    Opcode.mode (jumpIndirect call reg) = 2 ∧ Opcode.reg (jumpIndirect call reg) = reg.toNat := by
  cases call
  · exact of_register (p := fun reg => Opcode.mode (jumpIndirect false reg) = 2 ∧
      Opcode.reg (jumpIndirect false reg) = reg.toNat) (by decide) hr
  · exact of_register (p := fun reg => Opcode.mode (jumpIndirect true reg) = 2 ∧
      Opcode.reg (jumpIndirect true reg) = reg.toNat) (by decide) hr

/-- A jump or call has its target as its only operand. -/
theorem slots_jumpCode {op : Opcode} (call : Bool) {mode : Mode}
    (hm : Mode.ofFields? op.mode op.reg = some mode) (hi : mode ≠ .immediate)
    (hc : mode.can .control = true) :
    slots op (jumpCode call) = .ok (forward [.address mode op.reg .word]) := by
  have h : slots op (jumpCode call) = singleSlot op "target" .control none := by
    cases call <;> rfl
  rw [h, singleSlot, requiredSlot_eq hm (fun _ => hi) hc]
  rfl

/-! ## 3. What the linker writes -/

variable (rest : Bytes) (position : Nat)

/-- **A branch word is the word branch on its condition.** -/
theorem decode_branchWord (condition : Condition) (w : UInt16) :
    decode ⟨Bytes.ofWord16 (branchWord condition) ++ (Bytes.ofWord16 w ++ rest), position, []⟩
      = .ok ⟨position, branchWord condition, some (.wordBranch condition),
          [.displacement .word (Bytes.signed16 w)], [w]⟩ := by
  have hc : classify (branchWord condition) = some (.wordBranch condition) := by
    cases condition <;> decide
  have hs : slots (branchWord condition) (.wordBranch condition)
      = .ok (forward [.displacement]) := rfl
  have hr : readSlots [.displacement] ⟨Bytes.ofWord16 w ++ rest, position + 2, []⟩
      = .ok ([.displacement .word (Bytes.signed16 w)], ⟨rest, position + 2 + 2, [w]⟩) := by
    simp only [readSlots, Slot.read, next_ofWord16, bind, Except.bind, List.nil_append]
  exact decode_of_slots hc hs hr

/-- **A load takes the address that its displacement leads to.** -/
theorem decode_loadRelative {reg : UInt8} (hr : reg < 8) (w : UInt16) :
    decode ⟨Bytes.ofWord16 (loadRelative reg) ++ (Bytes.ofWord16 w ++ rest), position, []⟩
      = .ok ⟨position, loadRelative reg, some (.plain .lea .long),
          [.address (.pcDisplaced (Bytes.signed16 w)), .addressRegister reg.toNat], [w]⟩ := by
  obtain ⟨h7, h2, hu⟩ := fields_loadRelative hr
  have hm : Mode.ofFields? (Opcode.mode (loadRelative reg)) (Opcode.reg (loadRelative reg))
      = some .pcDisplaced := by
    rw [h7, h2]
    rfl
  have hs : slots (loadRelative reg) (.plain .lea .long)
      = .ok (forward [.address .pcDisplaced 2 .word, .addressRegister reg.toNat]) := by
    show withSlot (requiredSlot (loadRelative reg) "source" .control none) _ = _
    rw [requiredSlot_eq hm (fun _ => by decide) (by decide), h2, hu]
    rfl
  have hw : readSlots [.address .pcDisplaced 2 .word, .addressRegister reg.toNat]
      ⟨Bytes.ofWord16 w ++ rest, position + 2, []⟩
      = .ok ([.address (.pcDisplaced (Bytes.signed16 w)), .addressRegister reg.toNat],
          ⟨rest, position + 2 + 2, [w]⟩) := by
    simp only [readSlots, Slot.read, readAddress, next_ofWord16, bind, Except.bind,
      List.nil_append, Slot.addressRegister]
  exact decode_of_slots (classify_loadRelative hr) hs hw

/-- **A jump through a register names this register.** -/
theorem decode_jumpIndirect (call : Bool) {reg : UInt8} (hr : reg < 8) :
    decode ⟨Bytes.ofWord16 (jumpIndirect call reg) ++ rest, position, []⟩
      = .ok ⟨position, jumpIndirect call reg, some (jumpCode call),
          [.address (.indirect reg.toNat)], []⟩ := by
  obtain ⟨h2, hreg⟩ := fields_jumpIndirect call hr
  have hm : Mode.ofFields? (Opcode.mode (jumpIndirect call reg))
      (Opcode.reg (jumpIndirect call reg)) = some .indirect := by
    rw [h2]
    rfl
  have hs := slots_jumpCode call hm (by decide) (by decide)
  rw [hreg] at hs
  have hn : readSlots [.address .indirect reg.toNat .word] ⟨rest, position + 2, []⟩
      = .ok ([.address (.indirect reg.toNat)], ⟨rest, position + 2, []⟩) := rfl
  exact decode_of_slots (classify_jumpIndirect call hr) hs hn

/-- **A jump to an absolute address names this address.** -/
theorem decode_jumpAbsolute (call : Bool) (address : UInt32) :
    decode ⟨Bytes.ofWord16 (jumpAbsolute call) ++ (Bytes.ofWord32 address ++ rest), position, []⟩
      = .ok ⟨position, jumpAbsolute call, some (jumpCode call),
          [.address (.absoluteLong address)],
          [(address >>> 16).toUInt16, address.toUInt16]⟩ := by
  have hc : classify (jumpAbsolute call) = some (jumpCode call) := by
    cases call <;> decide
  have hm : Mode.ofFields? (Opcode.mode (jumpAbsolute call)) (Opcode.reg (jumpAbsolute call))
      = some .absoluteLong := by
    cases call <;> rfl
  have hs := slots_jumpCode call hm (by decide) (by decide)
  have hr : readSlots [.address .absoluteLong (Opcode.reg (jumpAbsolute call)) .word]
      ⟨Bytes.ofWord32 address ++ rest, position + 2, []⟩
      = .ok ([.address (.absoluteLong address)], ⟨rest, position + 2 + 2 + 2,
          [(address >>> 16).toUInt16, address.toUInt16]⟩) := by
    simp only [readSlots, Slot.read, readAddress, WordReader.nextLong, Bytes.ofWord32,
      List.append_assoc, next_ofWord16, bind, Except.bind, List.nil_append, List.cons_append,
      Bytes.long_ofWord32]
  exact decode_of_slots hc hs hr

theorem decode_nop :
    decode ⟨Bytes.ofWord16 nop ++ rest, position, []⟩
      = .ok ⟨position, nop, some (.sizeless .nop), [], []⟩ := by
  have hr : readSlots [] ⟨rest, position + 2, []⟩ = .ok ([], ⟨rest, position + 2, []⟩) := rfl
  exact decode_of_slots (by decide) rfl hr

end AmigaBinary.Routine
