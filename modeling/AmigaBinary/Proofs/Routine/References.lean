import AmigaBinary.Proofs.Routine.Instructions
import AmigaBinary.Proofs.Routine.Placement
import Mathlib.Algebra.Ring.Nat

/-!
# References in linked code

Linking turns the names of routines into addresses. `Reaches` says what the processor finds where a
section was linked: the instruction of the section, and an address in it that is the offset of the
routine the section names. `link_resolves` says that this holds of every reference of every routine,
and that a routine which ends by branching to another one runs into it or ends with the branch.
-/

namespace AmigaBinary.Routine

open M68k

/-! ## 1. What the processor finds -/

/-- A branch of 16 bits whose target is `target`. -/
def BranchesTo (code : Bytes) (position : Nat) (mnemonic : Mnemonic) (target : Nat) : Prop :=
  ∃ i, readInstruction code position = .ok i ∧ i.mnemonic? = some mnemonic ∧
    i.code.bind (·.size) = some .word ∧ i.branchTarget? = some target

/-- `LEA (d16,PC),An` with a displacement that leads from its field to `target`. -/
def Loads (code : Bytes) (position : Nat) (reg : UInt8) (target : Nat) : Prop :=
  ∃ i displacement, readInstruction code position = .ok i ∧ i.mnemonic? = some .lea ∧
    i.operands = [.address (.pcDisplaced displacement), .addressRegister reg.toNat] ∧
    ((position + 2 : Nat) : Int) + displacement = target

/-- `JSR (An)` or `JMP (An)`. -/
def JumpsThrough (code : Bytes) (position : Nat) (call : Bool) (reg : UInt8) : Prop :=
  ∃ i, readInstruction code position = .ok i ∧
    i.mnemonic? = some (if call then .jsr else .jmp) ∧
    i.operands = [.address (.indirect reg.toNat)]

/-- `JSR (xxx).L` or `JMP (xxx).L` with the given address. -/
def JumpsTo (code : Bytes) (position : Nat) (call : Bool) (address : Nat) : Prop :=
  ∃ i a, readInstruction code position = .ok i ∧
    i.mnemonic? = some (if call then .jsr else .jmp) ∧
    i.operands = [.address (.absoluteLong a)] ∧ a.toNat = address

/-- `NOP`. -/
def Idles (code : Bytes) (position : Nat) : Prop :=
  ∃ i, readInstruction code position = .ok i ∧ i.mnemonic? = some .nop ∧ i.operands = []

/-- What stands at the position of a section that refers to the routine at offset `target`. -/
def Reaches (code : Bytes) (position target : Nat) : Section → Prop
  | .branch mnemonic _ => BranchesTo code position mnemonic target
  | .library call _ _ => JumpsTo code position call (0x10000000 ||| target)
  | .register call reg _ =>
      Loads code position reg target ∧ JumpsThrough code (position + 4) call reg
  | .loadAddress reg _ => Loads code position reg target ∧ Idles code (position + 4)
  | .literal _ | .rawData => False

/-- A section that names an address register names one of the eight. -/
def Section.RegisterExists : Section → Prop
  | .register _ reg _ | .loadAddress reg _ => reg < 8
  | _ => True

instance (s : Section) : Decidable s.RegisterExists := by
  cases s <;> unfold Section.RegisterExists <;> infer_instance

/-! ## 2. Single instructions -/

variable {code : Bytes} {position target : Nat}

theorem readInstruction_of_lies {op : Opcode} {part : Bytes}
    (h : Lies (Bytes.ofWord16 op ++ part) position code) :
    ∃ rest, readInstruction code position
      = decode ⟨Bytes.ofWord16 op ++ (part ++ rest), position, []⟩ := by
  obtain ⟨rest, hd⟩ := h.drop
  exact ⟨rest, by rw [readInstruction, WordReader.start, hd, List.append_assoc]⟩

/-- Targets inside of code are far from the bounds of 64-bit words. -/
theorem toNat?_bmod {n : Nat} (h : n < 2 ^ 28) :
    ((n : Int).bmod Instruction.wordCount).toNat? = some n := by
  rw [Int.bmod_eq_of_le (by simp only [Instruction.wordCount]; omega)
    (by simp only [Instruction.wordCount]; omega)]
  rfl

theorem branchesTo_of_lies {condition : Condition} {w : UInt16}
    (h : Lies (Bytes.ofWord16 (branchWord condition) ++ Bytes.ofWord16 w) position code)
    (hw : ((position + 2 : Nat) : Int) + Bytes.signed16 w = target) (ht : target < 2 ^ 28) :
    BranchesTo code position (.branch condition) target := by
  obtain ⟨rest, hi⟩ := readInstruction_of_lies h
  rw [decode_branchWord] at hi
  refine ⟨_, hi, rfl, rfl, ?_⟩
  have hv : ((position : Int) + 2 + Bytes.signed16 w) = (target : Int) := by
    rw [← hw]
    push_cast
    rfl
  show (((position : Int) + 2 + Bytes.signed16 w).bmod Instruction.wordCount).toNat? = _
  rw [hv, toNat?_bmod ht]

theorem loads_of_lies {reg : UInt8} {w : UInt16} {behind : Bytes} (hr : reg < 8)
    (h : Lies (Bytes.ofWord16 (loadRelative reg) ++ (Bytes.ofWord16 w ++ behind)) position code)
    (hw : ((position + 2 : Nat) : Int) + Bytes.signed16 w = target) :
    Loads code position reg target := by
  obtain ⟨rest, hi⟩ := readInstruction_of_lies h
  rw [List.append_assoc, decode_loadRelative _ _ hr] at hi
  exact ⟨_, _, hi, rfl, rfl, hw⟩

theorem jumpsThrough_of_lies {call : Bool} {reg : UInt8} (hr : reg < 8)
    (h : Lies (Bytes.ofWord16 (jumpIndirect call reg)) position code) :
    JumpsThrough code position call reg := by
  rw [← List.append_nil (Bytes.ofWord16 _)] at h
  obtain ⟨rest, hi⟩ := readInstruction_of_lies h
  rw [decode_jumpIndirect _ _ call hr] at hi
  exact ⟨_, hi, rfl, rfl⟩

theorem idles_of_lies (h : Lies (Bytes.ofWord16 nop) position code) : Idles code position := by
  rw [← List.append_nil (Bytes.ofWord16 _)] at h
  obtain ⟨rest, hi⟩ := readInstruction_of_lies h
  rw [decode_nop] at hi
  exact ⟨_, hi, rfl, rfl⟩

theorem jumpsTo_of_lies {call : Bool} (ht : target < 2 ^ 28)
    (h : Lies (Bytes.ofWord16 (jumpAbsolute call)
      ++ Bytes.ofWord32 (addressTag ||| UInt32.ofNat target)) position code) :
    JumpsTo code position call (0x10000000 ||| target) := by
  obtain ⟨rest, hi⟩ := readInstruction_of_lies h
  rw [decode_jumpAbsolute] at hi
  refine ⟨_, _, hi, rfl, rfl, ?_⟩
  have hn : (UInt32.ofNat target).toNat = target := by
    rw [UInt32.toNat_ofNat']
    omega
  rw [UInt32.toNat_or, hn]
  rfl

/-! ## 3. Linked sections -/

variable {placements : List Placement} {own : UInt8}

/-- **What a section is linked to reaches the routine that the section names.** -/
theorem reaches_of_linkSection {s : Section} {f : Fragment} {owner : UInt8} {routine : UInt16}
    (h : linkSection placements own position s = .ok f) (hl : Lies f.code position code)
    (hr : s.RegisterExists) (hs : s.reference? = some (owner, routine))
    (hb : ∀ spot ∈ placements, spot.offset < 2 ^ 28) :
    ∃ spot, placements.find? (·.key == (if owner = 0 then own else owner, routine)) = some spot ∧
      Reaches code position spot.offset s := by
  cases s with
  | literal bytes => simp [Section.reference?] at hs
  | rawData => simp [Section.reference?] at hs
  | branch mnemonic named =>
      obtain ⟨rfl, rfl⟩ := Prod.mk.inj (Option.some.inj hs)
      obtain ⟨n, ht, h⟩ := bind_eq_ok.1 h
      obtain ⟨spot, hf, rfl⟩ := targetOffset_eq_ok ht
      obtain ⟨condition, w, rfl, hw, rfl⟩ := linkBranch_eq_ok h
      exact ⟨spot, hf, branchesTo_of_lies hl hw (hb spot (List.mem_of_find?_eq_some hf))⟩
  | library call other named =>
      obtain ⟨rfl, rfl⟩ := Prod.mk.inj (Option.some.inj hs)
      obtain ⟨n, ht, h⟩ := bind_eq_ok.1 h
      obtain ⟨spot, hf, rfl⟩ := targetOffset_eq_ok ht
      obtain rfl := Except.ok.inj h
      exact ⟨spot, hf, jumpsTo_of_lies (hb spot (List.mem_of_find?_eq_some hf)) hl⟩
  | register call reg named =>
      obtain ⟨rfl, rfl⟩ := Prod.mk.inj (Option.some.inj hs)
      obtain ⟨n, ht, h⟩ := bind_eq_ok.1 h
      obtain ⟨spot, hf, rfl⟩ := targetOffset_eq_ok ht
      obtain ⟨w, hw, rfl⟩ := linkLoad_eq_ok h
      have hlea : Lies (Bytes.ofWord16 (loadRelative reg)
          ++ (Bytes.ofWord16 w ++ Bytes.ofWord16 (jumpIndirect call reg))) position code := by
        rw [← List.append_assoc]
        exact hl
      have hjump : Lies (Bytes.ofWord16 (jumpIndirect call reg)) 4
          (Bytes.ofWord16 (loadRelative reg) ++ Bytes.ofWord16 w
            ++ Bytes.ofWord16 (jumpIndirect call reg)) :=
        (Lies.refl _).append_left _
      exact ⟨spot, hf, loads_of_lies hr hlea hw, jumpsThrough_of_lies hr (hjump.trans hl)⟩
  | loadAddress reg named =>
      obtain ⟨rfl, rfl⟩ := Prod.mk.inj (Option.some.inj hs)
      obtain ⟨n, ht, h⟩ := bind_eq_ok.1 h
      obtain ⟨spot, hf, rfl⟩ := targetOffset_eq_ok ht
      obtain ⟨w, hw, rfl⟩ := linkLoad_eq_ok h
      have hlea : Lies (Bytes.ofWord16 (loadRelative reg)
          ++ (Bytes.ofWord16 w ++ Bytes.ofWord16 nop)) position code := by
        rw [← List.append_assoc]
        exact hl
      have hnop : Lies (Bytes.ofWord16 nop) 4 (Bytes.ofWord16 (loadRelative reg)
          ++ Bytes.ofWord16 w ++ Bytes.ofWord16 nop) :=
        (Lies.refl _).append_left _
      exact ⟨spot, hf, loads_of_lies hr hlea hw, idles_of_lies (hnop.trans hl)⟩

/-! ## 4. Linked routines -/

/-- Every section of a routine that names a routine reaches it; library 0 stands for the library of
    the routine itself. -/
def SectionsReach (linked : Linked) (source : Source) (spot : Placement) : Prop :=
  ∀ front s back owner routine, source.pattern.sections = front ++ s :: back →
    s.reference? = some (owner, routine) →
    ∃ target, linked.placement? (if owner = 0 then source.library else owner) routine
        = some target ∧
      Reaches linked.code (spot.offset + total Section.length front) target.offset s

/-- A routine that ends by branching to another one has it right behind its sections, or the branch
    stands there. -/
def EndReaches (linked : Linked) (source : Source) (spot : Placement) : Prop :=
  ∀ routine, source.pattern.fallthroughTarget = some routine →
    ∃ target, linked.placement? source.library routine = some target ∧
      (spot.length = source.pattern.bodyLength ∧ target.offset = spot.offset + spot.length ∨
        spot.length = source.pattern.bodyLength + 4 ∧
          BranchesTo linked.code (spot.offset + source.pattern.bodyLength) (.branch .always)
            target.offset)

/-- Every routine has its place, in the given order, and everything it refers to is reached. -/
structure Resolves (sources : List Source) (linked : Linked) : Prop where
  keys : linked.routines.map Placement.key = sources.map Source.key
  sections : ∀ source spot, (source, spot) ∈ sources.zip linked.routines →
    SectionsReach linked source spot
  ends : ∀ source spot, (source, spot) ∈ sources.zip linked.routines →
    EndReaches linked source spot

/-- Where the code of a linked routine lies, and that all places lie inside of the code. -/
theorem lies_of_link {sources : List Source} {linked : Linked} (h : link sources = .ok linked)
    {source : Source} {spot : Placement} (hm : (source, spot) ∈ sources.zip linked.routines) :
    ∃ g, linkRoutine linked.routines source spot = .ok g ∧ Lies g.code spot.offset linked.code := by
  obtain ⟨f, hf, hc, -, hp, -⟩ := link_eq_ok h
  rw [hp] at hm
  obtain ⟨g, start, hg, hl, hs⟩ := lies_linkRoutine hf hm
  refine ⟨g, hg, ?_⟩
  rw [hs, hc]
  exact hl.append_left (Bytes.ofWord16 rts)

/-- A place is that of one of the routines. -/
theorem exists_source_of_link {sources : List Source} {linked : Linked}
    (h : link sources = .ok linked) {spot : Placement} (hm : spot ∈ linked.routines) :
    ∃ source, (source, spot) ∈ sources.zip linked.routines := by
  obtain ⟨-, -, -, -, hp, -⟩ := link_eq_ok h
  have hlen : linked.routines.length = sources.length := by
    rw [hp, length_layoutFrom]
  obtain ⟨i, hi, rfl⟩ := List.mem_iff_getElem.1 hm
  refine ⟨sources[i], ?_⟩
  rw [← List.getElem_zip (h := by simp; omega)]
  exact List.getElem_mem _

theorem offset_le_of_link {sources : List Source} {linked : Linked}
    (h : link sources = .ok linked) {spot : Placement} (hm : spot ∈ linked.routines) :
    spot.offset ≤ linked.code.length := by
  obtain ⟨source, hz⟩ := exists_source_of_link h hm
  obtain ⟨g, -, hl⟩ := lies_of_link h hz
  have := hl.le_length
  omega

theorem sectionsReach_of_link {sources : List Source} {linked : Linked}
    (h : link sources = .ok linked) (hl : linked.code.length < 2 ^ 28) {source : Source}
    {spot : Placement} (hr : ∀ s ∈ source.pattern.sections, s.RegisterExists)
    (hm : (source, spot) ∈ sources.zip linked.routines) : SectionsReach linked source spot := by
  intro front s back owner routine hs ho
  obtain ⟨g, hg, hlies⟩ := lies_of_link h hm
  rw [linkRoutine, hs] at hg
  obtain ⟨f, hf, hin⟩ := lies_linkSection hg
  have hmem : s ∈ source.pattern.sections := by
    rw [hs]
    exact List.mem_append_right _ List.mem_cons_self
  refine reaches_of_linkSection hf (hin.trans hlies) (hr s hmem) ho fun target ht => ?_
  exact Nat.lt_of_le_of_lt (offset_le_of_link h ht) hl

theorem endReaches_of_link {sources : List Source} {linked : Linked}
    (h : link sources = .ok linked) (hl : linked.code.length < 2 ^ 28) {source : Source}
    {spot : Placement} (hm : (source, spot) ∈ sources.zip linked.routines) :
    EndReaches linked source spot := by
  intro routine hto
  obtain ⟨-, -, -, -, hp, hnodup⟩ := link_eq_ok h
  obtain ⟨g, hg, hlies⟩ := lies_of_link h hm
  have hlength : spot.length = _ := length_of_mem_layoutFrom (hp ▸ hm)
  rw [Placement.tailLength, hto] at hlength
  cases hf : spot.fallthrough with
  | true =>
      obtain ⟨next, hn, ht, ho, he⟩ := next_of_fallthrough (hp ▸ hm) hf
      obtain rfl : routine = next.routine := Option.some.inj (hto.symm.trans ht)
      rw [← layoutFrom_keys sources startOffset] at hnodup
      have hfind := find?_of_nodup hnodup hn
      rw [Placement.key, ho, ← hp] at hfind
      rw [if_pos hf] at hlength
      exact ⟨next, hfind, .inl ⟨hlength, he⟩⟩
  | false =>
      obtain ⟨f, hlast, hin⟩ := lies_last hg
      rw [linkFallthrough, hto, hf] at hlast
      obtain ⟨n, ht, hb⟩ := bind_eq_ok.1 hlast
      obtain ⟨target, hfind, rfl⟩ := targetOffset_eq_ok ht
      obtain ⟨condition, w, hc, hw, rfl⟩ := linkBranch_eq_ok hb
      obtain rfl := Mnemonic.branch.inj hc
      have hbound := offset_le_of_link h (List.mem_of_find?_eq_some hfind)
      rw [if_neg (by simp [hf])] at hlength
      exact ⟨target, hfind, .inr ⟨hlength,
        branchesTo_of_lies (hin.trans hlies) hw (Nat.lt_of_le_of_lt hbound hl)⟩⟩

/-- **Linking resolves every reference**: where routines link and their code is shorter than what
    the tag of an address leaves room for, every section reaches the routine that it names, and
    every routine runs into the one that it ends by branching to or ends with the branch. -/
theorem link_resolves {sources : List Source} {linked : Linked} (h : link sources = .ok linked)
    (hr : ∀ source ∈ sources, ∀ s ∈ source.pattern.sections, s.RegisterExists)
    (hl : linked.code.length < 2 ^ 28) : Resolves sources linked where
  keys := by
    obtain ⟨-, -, -, -, hp, -⟩ := link_eq_ok h
    rw [hp, layoutFrom_keys]
  sections source _ hm := sectionsReach_of_link h hl (hr source (List.of_mem_zip hm).1) hm
  ends _ _ hm := endReaches_of_link h hl hm

/-- Routines with every kind of reference: a load, a call through a register, branches forward and
    backward, jumps into two libraries, one end that runs on and one that branches back. -/
def interlinked : List Source :=
  [⟨1, 1, ⟨[.register true 2 2, .branch (.branch .equal) 2, .loadAddress 3 1, .rawData], none,
      some 2⟩⟩,
   ⟨1, 2, ⟨[.literal [0x4E, 0x71], .library false 0 1, .library true 7 9], none, some 1⟩⟩,
   ⟨7, 9, ⟨[.branch (.branch .never) 9, .literal [0x4E, 0x75]], none, none⟩⟩]

/-- The routines of `interlinked` link, and so every reference in them is resolved. -/
theorem link_resolves_interlinked :
    ∃ linked, link interlinked = .ok linked ∧
      (∀ source ∈ interlinked, ∀ s ∈ source.pattern.sections, s.RegisterExists) ∧
      linked.code.length < 2 ^ 28 ∧ Resolves interlinked linked :=
  ⟨_, rfl, by decide, by decide, link_resolves rfl (by decide) (by decide)⟩

end AmigaBinary.Routine
