import AmigaBinary.Proofs.M68k.Slots

/-!
# What is classified has its slots

Line by line, every form that an opcode is classified as has slots that the opcode can fill
(`laid_of_classify`): the capability that the classification demands of an effective address is at
least the one that its slot demands.
-/

namespace AmigaBinary.M68k

open InstructionCode

variable {op : Opcode} {form code : InstructionCode} {capability : Capability}

/-! ## 1. Demands -/

theorem requiring_eq_some : requiring op capability code = some form ↔
    (∃ mode, op.addressMode? = some mode ∧ mode.can capability = true) ∧ form = code := by
  unfold requiring
  rw [← allows_eq_true]
  split
  · rename_i h
    simp [h, eq_comm]
  · rename_i h
    simp [h]

theorem sized_eq_some {f : Size → InstructionCode} : sized f op = some form ↔
    ∃ size, Size.ofField? op.sizeField = some size ∧ form = f size := by
  unfold sized
  rw [Option.map_eq_some_iff]
  simp only [eq_comm]

theorem sizedRequiring_eq_some {f : Size → InstructionCode} :
    sizedRequiring op capability f = some form ↔
      (∃ mode, op.addressMode? = some mode ∧ mode.can capability = true) ∧
        ∃ size, Size.ofField? op.sizeField = some size ∧ form = f size := by
  unfold sizedRequiring
  rw [← allows_eq_true, ← sized_eq_some]
  split
  · rename_i h
    simp [h]
  · rename_i h
    simp [h]

theorem readable_eq_true {m : Option Mode} {size : Option Size} (h : readable m size = true) :
    ∃ mode, m = some mode := by
  cases m with
  | none => cases h
  | some mode => exact ⟨mode, rfl⟩

/-- **What is required of an effective address is what its slot requires.** Immediate data is
    excluded by the capability. -/
theorem laid_of_requiring {role : String} {size : Option Size} {layout : Slot → Layout}
    (h : requiring op capability code = some form)
    (hi : Mode.immediate.can capability = false)
    (hs : slots op code = withSlot (requiredSlot op role capability size) layout)
    (hf : code.addressFields op = [(op.mode, op.reg)]) (hl : Frame code layout) :
    Laid op form := by
  obtain ⟨⟨mode, hm, hc⟩, rfl⟩ := requiring_eq_some.1 h
  exact laid_of_required hs hm hc (ne_immediate hi hc) hf hl

/-- **The same, of data, which may be immediate.** -/
theorem laid_of_requiring_data {role : String} {size : Size} {layout : Slot → Layout}
    (h : requiring op .data code = some form) (hsize : code.size = some size)
    (hs : slots op code = withSlot (requiredSlot op role .data (some size)) layout)
    (hf : code.addressFields op = [(op.mode, op.reg)]) (hl : Frame code layout) :
    Laid op form := by
  obtain ⟨⟨mode, hm, hc⟩, rfl⟩ := requiring_eq_some.1 h
  exact laid_of_sized hsize hs hm hc hf hl

/-- **The same, in each size.** -/
theorem laid_of_sizedRequiring {f : Size → InstructionCode} {role : String}
    {sizeOf : Size → Option Size} {layout : Size → Slot → Layout}
    (h : sizedRequiring op capability f = some form)
    (hi : Mode.immediate.can capability = false)
    (hs : ∀ size, slots op (f size)
      = withSlot (requiredSlot op role capability (sizeOf size)) (layout size))
    (hf : ∀ size, (f size).addressFields op = [(op.mode, op.reg)])
    (hl : ∀ size, Frame (f size) (layout size)) : Laid op form := by
  obtain ⟨⟨mode, hm, hc⟩, size, -, rfl⟩ := sizedRequiring_eq_some.1 h
  exact laid_of_required (hs size) hm hc (ne_immediate hi hc) (hf size) (hl size)

/-! ## 2. Bit operations and immediate data -/

theorem laid_classifyBit {f : Mnemonic → InstructionCode} (hf : f = dynamicBit ∨ f = staticBit)
    (h : classifyBit op f = some form) : Laid op form := by
  unfold classifyBit at h
  split at h
  · -- a test reads any data that is not immediate
    split at h
    · rename_i hc
      obtain ⟨hdata, himmediate⟩ := Bool.and_eq_true_iff.1 hc
      obtain ⟨mode, hm, hdata⟩ := allows_eq_true.1 hdata
      have hi : mode ≠ .immediate := by
        rintro rfl
        rw [hm] at himmediate
        exact absurd himmediate (by decide)
      cases h
      rcases hf with rfl | rfl
      · exact laid_of_required rfl hm hdata hi rfl (frame_last rfl rfl)
      · exact laid_of_required rfl hm hdata hi rfl (frame_last rfl rfl)
    · cases h
  all_goals
    rcases hf with rfl | rfl
    · exact laid_of_requiring h rfl rfl rfl (frame_last rfl rfl)
    · exact laid_of_requiring h rfl rfl rfl (frame_last rfl rfl)

theorem laid_classifyImmediate {m : Mnemonic} (h : classifyImmediate op m = some form)
    (hs : ∀ size, slots op (withImmediate m size) = immediateSlots op (withImmediate m size))
    (hf : ∀ size, (withImmediate m size).addressFields op = [(op.mode, op.reg)]) :
    Laid op form :=
  laid_of_sizedRequiring h rfl hs hf fun _ => frame_last rfl rfl

theorem laid_classifyLogicalImmediate {m : Mnemonic} (hm : m = .ori ∨ m = .andi ∨ m = .eori)
    (h : classifyLogicalImmediate op m = some form) : Laid op form := by
  unfold classifyLogicalImmediate at h
  split at h
  · cases h
    rcases hm with rfl | rfl | rfl <;> exact laid_of_fixed rfl rfl rfl rfl rfl
  · cases h
    rcases hm with rfl | rfl | rfl <;> exact laid_of_fixed rfl rfl rfl rfl rfl
  · rcases hm with rfl | rfl | rfl <;>
      exact laid_classifyImmediate h (fun _ => rfl) fun _ => rfl

theorem laid_classifyMovep (op : Opcode) : Laid op (classifyMovep op) := by
  unfold classifyMovep
  split <;> exact laid_of_fixed rfl rfl rfl rfl rfl

theorem laid_classifyLine0 (h : classifyLine0 op = some form) : Laid op form := by
  unfold classifyLine0 at h
  split at h
  · split at h
    · cases h
      exact laid_classifyMovep op
    · exact laid_classifyBit (.inl rfl) h
  · split at h
    · exact laid_classifyLogicalImmediate (.inl rfl) h
    · exact laid_classifyLogicalImmediate (.inr (.inl rfl)) h
    · exact laid_classifyImmediate h (fun _ => rfl) fun _ => rfl
    · exact laid_classifyImmediate h (fun _ => rfl) fun _ => rfl
    · exact laid_classifyBit (.inr rfl) h
    · exact laid_classifyLogicalImmediate (.inr (.inr rfl)) h
    · exact laid_classifyImmediate h (fun _ => rfl) fun _ => rfl
    · cases h

/-! ## 3. MOVE -/

/-- **MOVE has two effective addresses.** Its destination is alterable and no address register, so
    it is alterable data. -/
theorem laid_move {size : Size} {source destination : Mode} (hs : op.addressMode? = some source)
    (hd : Mode.ofFields? op.opmode op.upper = some destination)
    (ha : destination.can .alterable = true) (hr : destination ≠ .addressRegister) :
    Laid op (plain .move size) := by
  have hdata : destination.can .dataAlterable = true := by
    cases destination with
    | addressRegister => exact absurd rfl hr
    | pcDisplaced | pcIndexed | immediate => exact absurd ha (by decide)
    | _ => rfl
  have hslots : slots op (plain .move size)
      = .ok (forward [.address source op.reg size, .address destination op.upper size]) := by
    have hsource : sourceSlot op (some size) = .ok (.address source op.reg size) :=
      addressSlot_eq hs fun h => by cases h
    have hdestination : addressSlot op op.opmode op.upper (some size)
        = .ok (.address destination op.upper size) := addressSlot_eq hd fun h => by cases h
    have hmove : slots op (plain .move size) = (do
        let source ← sourceSlot op (some size)
        let destination ← addressSlot op op.opmode op.upper (some size)
        let destination ← destination.require op "destination" .dataAlterable
        .ok (forward [source, destination])) := by
      cases size <;> rfl
    rw [hmove]
    exact bind_eq_ok.2 ⟨_, hsource, bind_eq_ok.2 ⟨_, hdestination, bind_eq_ok.2
      ⟨_, require_eq hdata, rfl⟩⟩⟩
  have hn : (plain .move size).requiredWords op
      = source.extensionWords size + (destination.extensionWords size + 0) := by
    have hfields : (plain .move size).addressFields op
        = [(op.mode, op.reg), (op.opmode, op.upper)] := rfl
    rw [requiredWords, hfields, ← fieldWords_eq hs, ← fieldWords_eq hd]
    exact Nat.zero_add _
  exact ⟨_, hslots, Nat.le_refl 2, hn.symm, hn.symm⟩

theorem laid_classifyMove {size : Size} (h : classifyMove op size = some form) :
    Laid op form := by
  unfold classifyMove at h
  split at h
  · rename_i hr
    obtain ⟨source, hs⟩ := readable_eq_true hr
    split at h
    · split at h
      · cases h
      · cases h
        exact laid_of_source rfl rfl hs rfl (frame_first rfl rfl)
    · rename_i destination hne hd
      split at h
      · rename_i ha
        cases h
        exact laid_move hs hd ha hne
      · cases h
    · cases h
  · cases h

/-! ## 4. Line 4 -/

theorem laid_classifyControl (h : classifyControl op = some form) : Laid op form := by
  unfold classifyControl at h
  split at h
  all_goals cases h
  all_goals exact laid_of_fixed rfl rfl rfl rfl rfl

theorem laid_classifyExtOrStore {size : Size} (h : classifyExtOrStore op size = some form) :
    Laid op form := by
  have hoverload : (movemToMemory size).overload = 0 := rfl
  unfold classifyExtOrStore at h
  split at h
  · cases h
    exact laid_of_fixed rfl rfl rfl rfl rfl
  · cases h
  · rename_i mode _ hpost hm
    split at h
    · rename_i hc
      cases h
      have hs : slots op (movemToMemory size)
          = withSlot (requiredSlot op "destination" .memoryAlterable none) fun destination =>
            forward [.registerList (op.addressMode? = some .preDecrement), destination] := by
        show movemSlots op (movemToMemory size) = _
        rw [movemSlots, if_pos hoverload, hm]
        cases mode with
        | postIncrement => exact (hpost rfl).elim
        | _ => rfl
      exact laid_of_required hs hm hc (ne_immediate rfl hc) rfl (frame_last rfl rfl)
    · cases h
  · cases h

theorem laid_classifyLoad {size : Size} (h : classifyLoad op size = some form) :
    Laid op form := by
  have hoverload : (movemToRegisters size).overload ≠ 0 := Nat.one_ne_zero
  unfold classifyLoad at h
  split at h
  · rename_i hm
    cases h
    have hs : slots op (movemToRegisters size) = withSlot (sourceSlot op none) fun source =>
        ⟨[.registerList false, source], true⟩ := by
      show movemSlots op (movemToRegisters size) = _
      rw [movemSlots, if_neg hoverload, hm]
    exact laid_of_slot hs (addressSlot_eq hm fun _ => by decide) hm (.inr (by decide)) rfl
      (frame_last rfl rfl)
  · rename_i mode hpost hm
    split at h
    · rename_i hc
      cases h
      have hs : slots op (movemToRegisters size)
          = withSlot (requiredSlot op "source" .control none) fun source =>
            ⟨[.registerList false, source], true⟩ := by
        show movemSlots op (movemToRegisters size) = _
        rw [movemSlots, if_neg hoverload, hm]
        cases mode with
        | postIncrement => exact (hpost rfl).elim
        | _ => rfl
      exact laid_of_required hs hm hc (ne_immediate rfl hc) rfl (frame_last rfl rfl)
    · cases h
  · cases h

theorem laid_classifyLine4 (h : classifyLine4 op = some form) : Laid op form := by
  unfold classifyLine4 at h
  split at h
  · exact laid_of_requiring h rfl rfl rfl (frame_first rfl rfl)
  · exact laid_of_requiring_data h rfl rfl rfl (frame_first rfl rfl)
  · exact laid_of_requiring h rfl rfl rfl (frame_last rfl rfl)
  · exact laid_of_requiring_data h rfl rfl rfl (frame_first rfl rfl)
  · exact laid_of_requiring_data h rfl rfl rfl (frame_first rfl rfl)
  · exact laid_of_requiring h rfl rfl rfl (frame_alone rfl)
  · split at h
    · cases h
      exact laid_of_fixed rfl rfl rfl rfl rfl
    · exact laid_of_requiring h rfl rfl rfl (frame_alone rfl)
  · exact laid_classifyExtOrStore h
  · exact laid_classifyExtOrStore h
  · split at h
    · cases h
      exact laid_of_fixed rfl rfl rfl rfl rfl
    · exact laid_of_requiring h rfl rfl rfl (frame_alone rfl)
  · exact laid_classifyLoad h
  · exact laid_classifyLoad h
  · exact laid_classifyControl h
  · exact laid_of_requiring h rfl rfl rfl (frame_alone rfl)
  · exact laid_of_requiring h rfl rfl rfl (frame_alone rfl)
  -- the operations in each size, and what is no instruction
  all_goals
    first
    | exact laid_of_sizedRequiring h rfl (fun _ => rfl) (fun _ => rfl) fun _ => frame_alone rfl
    | cases h

/-! ## 5. Quick data, sets, loops and branches -/

theorem laid_classifyLine5 (h : classifyLine5 op = some form) : Laid op form := by
  unfold classifyLine5 at h
  split at h
  · dsimp only at h
    split at h
    · cases h
      exact laid_of_fixed rfl rfl rfl rfl rfl
    · exact laid_of_requiring h rfl rfl rfl (frame_alone rfl)
  · split at h
    · rename_i hc
      obtain ⟨mode, hm, hc⟩ := allows_eq_true.1 (Bool.and_eq_true_iff.1 hc).1
      cases h
      cases op.bit8
      · exact laid_of_required rfl hm hc (ne_immediate rfl hc) rfl (frame_last rfl rfl)
      · exact laid_of_required rfl hm hc (ne_immediate rfl hc) rfl (frame_last rfl rfl)
    · cases h

theorem laid_classifyBranch (op : Opcode) : Laid op (classifyBranch op) := by
  unfold classifyBranch
  dsimp only
  split <;> exact laid_of_fixed rfl rfl rfl rfl rfl

/-! ## 6. Arithmetic and logic -/

theorem laid_classifyToRegister {m : Mnemonic} (h : classifyToRegister op m = some form)
    (hs : ∀ size, slots op (plain m size)
      = withSlot (sourceSlot op (some size)) fun source => forward [source, .dataRegister op.upper])
    (hf : ∀ size, (plain m size).addressFields op = [(op.mode, op.reg)]) : Laid op form := by
  unfold classifyToRegister at h
  split at h
  · rename_i hr
    obtain ⟨mode, hm⟩ := readable_eq_true hr
    obtain ⟨size, -, rfl⟩ := sized_eq_some.1 h
    exact laid_of_source rfl (hs size) hm (hf size) (frame_first rfl rfl)
  · cases h

theorem laid_requiringMode {size : Size} {layout : Slot → Layout}
    (h : requiringMode op code = some form) (hsize : code.size = some size)
    (hs : slots op code = withSlot (sourceSlot op (some size)) layout)
    (hf : code.addressFields op = [(op.mode, op.reg)]) (hl : Frame code layout) :
    Laid op form := by
  unfold requiringMode at h
  split at h
  · rename_i hsome
    obtain ⟨mode, hm⟩ := Option.isSome_iff_exists.1 hsome
    cases h
    exact laid_of_source hsize hs hm hf hl
  · cases h

/-- The addition and the subtraction, each with its address and its extended form. -/
def arithmetics : List (Mnemonic × Mnemonic × Mnemonic) :=
  [(.add, .adda, .addx), (.sub, .suba, .subx)]

theorem laid_classifyArithmetic {m address extended : Mnemonic}
    (hm : (m, address, extended) ∈ arithmetics)
    (h : classifyArithmetic op m address extended = some form) : Laid op form := by
  simp only [arithmetics, List.mem_cons, List.not_mem_nil, or_false, Prod.mk.injEq] at hm
  unfold classifyArithmetic at h
  rcases hm with ⟨rfl, rfl, rfl⟩ | ⟨rfl, rfl, rfl⟩
  all_goals
    split at h
    · exact laid_requiringMode h rfl rfl rfl (frame_first rfl rfl)
    · exact laid_requiringMode h rfl rfl rfl (frame_first rfl rfl)
    · exact laid_classifyToRegister h (fun _ => rfl) fun _ => rfl
    · exact laid_classifyToRegister h (fun _ => rfl) fun _ => rfl
    · exact laid_classifyToRegister h (fun _ => rfl) fun _ => rfl
    · split at h
      · obtain ⟨size, -, rfl⟩ := sized_eq_some.1 h
        exact laid_of_fixed rfl rfl rfl rfl rfl
      · obtain ⟨size, -, rfl⟩ := sized_eq_some.1 h
        exact laid_of_fixed rfl rfl rfl rfl rfl
      · exact laid_of_sizedRequiring h rfl (fun _ => rfl) (fun _ => rfl) fun _ => frame_last rfl rfl

theorem laid_classifyCompare (h : classifyCompare op = some form) : Laid op form := by
  unfold classifyCompare at h
  split at h
  · exact laid_requiringMode h rfl rfl rfl (frame_first rfl rfl)
  · exact laid_requiringMode h rfl rfl rfl (frame_first rfl rfl)
  · exact laid_classifyToRegister h (fun _ => rfl) fun _ => rfl
  · exact laid_classifyToRegister h (fun _ => rfl) fun _ => rfl
  · exact laid_classifyToRegister h (fun _ => rfl) fun _ => rfl
  · split at h
    · obtain ⟨size, -, rfl⟩ := sized_eq_some.1 h
      exact laid_of_fixed rfl rfl rfl rfl rfl
    · exact laid_of_sizedRequiring h rfl (fun _ => rfl) (fun _ => rfl) fun _ => frame_last rfl rfl

theorem laid_classifyLogical {m : Mnemonic} (hm : m = .and ∨ m = .or)
    (h : classifyLogical op m = some form) : Laid op form := by
  unfold classifyLogical at h
  split at h
  · rcases hm with rfl | rfl <;>
      exact laid_of_sizedRequiring h rfl (fun _ => rfl) (fun _ => rfl) fun _ => frame_last rfl rfl
  · obtain ⟨⟨mode, hmode, -⟩, size, -, rfl⟩ := sizedRequiring_eq_some.1 h
    rcases hm with rfl | rfl <;>
      exact laid_of_source rfl rfl hmode rfl (frame_first rfl rfl)

theorem laid_classifyLine8 (h : classifyLine8 op = some form) : Laid op form := by
  unfold classifyLine8 at h
  split at h
  · exact laid_of_requiring_data h rfl rfl rfl (frame_first rfl rfl)
  · exact laid_of_requiring_data h rfl rfl rfl (frame_first rfl rfl)
  · cases h
    exact laid_of_fixed rfl rfl rfl rfl rfl
  · cases h
    exact laid_of_fixed rfl rfl rfl rfl rfl
  · exact laid_classifyLogical (.inr rfl) h

theorem laid_classifyLineC (h : classifyLineC op = some form) : Laid op form := by
  unfold classifyLineC at h
  split at h
  · exact laid_of_requiring_data h rfl rfl rfl (frame_first rfl rfl)
  · exact laid_of_requiring_data h rfl rfl rfl (frame_first rfl rfl)
  · cases h
    exact laid_of_fixed rfl rfl rfl rfl rfl
  · cases h
    exact laid_of_fixed rfl rfl rfl rfl rfl
  · cases h
    exact laid_of_fixed rfl rfl rfl rfl rfl
  · cases h
    exact laid_of_fixed rfl rfl rfl rfl rfl
  · cases h
    exact laid_of_fixed rfl rfl rfl rfl rfl
  · exact laid_classifyLogical (.inl rfl) h

/-! ## 7. Shifts -/

theorem laid_registerShift (op : Opcode) (kind : ShiftKind) (direction : Direction) (size : Size) :
    Laid op (plain (.shift kind direction) size) := by
  have hs : slots op (plain (.shift kind direction) size) = .ok (forward
      [if op.bit5 then .dataRegister op.upper else .fixed (.quick op.quickData),
        .dataRegister op.reg]) := rfl
  cases hb : op.bit5
  · rw [hb] at hs
    exact laid_of_fixed hs rfl rfl rfl rfl
  · rw [hb] at hs
    exact laid_of_fixed hs rfl rfl rfl rfl

theorem laid_classifyShift (h : classifyShift op = some form) : Laid op form := by
  unfold classifyShift at h
  dsimp only at h
  split at h
  · split at h
    · exact laid_of_requiring h rfl rfl rfl (frame_alone rfl)
    · cases h
  · obtain ⟨size, -, rfl⟩ := sized_eq_some.1 h
    exact laid_registerShift op _ _ size

/-! ## 8. All lines -/

/-- **What is classified has its slots**: none of its operands is refused, and they take the words
    of the form and of its effective addresses. -/
theorem laid_of_classify (h : classify op = some form) : Laid op form := by
  unfold classify at h
  split at h
  · exact laid_classifyLine0 h
  · exact laid_classifyMove h
  · exact laid_classifyMove h
  · exact laid_classifyMove h
  · exact laid_classifyLine4 h
  · exact laid_classifyLine5 h
  · cases h
    exact laid_classifyBranch op
  · split at h
    · cases h
    · cases h
      exact laid_of_fixed rfl rfl rfl rfl rfl
  · exact laid_classifyLine8 h
  · exact laid_classifyArithmetic (.tail _ (.head _)) h
  · exact laid_classifyCompare h
  · exact laid_classifyLineC h
  · exact laid_classifyArithmetic (.head _) h
  · exact laid_classifyShift h
  · cases h

end AmigaBinary.M68k
