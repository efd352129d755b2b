import AmigaBinary.Proofs.Words
import AmigaBinary.Routine.Section
import Mathlib.Data.List.Basic

/-!
# Escapes

An escape is read exactly where it is spelled (`readEscape?_eq_some`). Its spelling is its written
form, but for two places that do not matter: the operand of the mark in front of data, and the kind
of jump of an address load. Whether one is read at all is decided by the first four bytes, as long
as there are two more (`isSome_readEscape?`).
-/

namespace AmigaBinary.Routine

open M68k

/-! ## 1. Spelling -/

namespace Section

/-- Whether a section is plain code. -/
def isLiteral : Section → Bool
  | .literal _ => true
  | _ => false

/-- A section that has the form of an escape. -/
def IsEscape : Section → Prop
  | .branch (.branch condition) _ => condition ∈ escapeConditions
  | .library _ _ _ | .rawData => True
  | .register _ reg _ | .loadAddress reg _ => reg < 8
  | .literal _ | .branch _ _ => False

/-- The bytes that a section can have in a routine. Plain code is as it is, and an escape is in its
    written form, but for the operand of the mark in front of data and the kind of jump of an
    address load. -/
def SpelledBy : Section → Bytes → Prop
  | .rawData, piece => ∃ operand, piece = [0xFF, 0xF1] ++ Bytes.ofWord16 operand
  | .loadAddress reg routine, piece => ∃ call, piece = extendedEscape call 1 (reg + 8) routine
  | s, piece => piece = s.write

theorem spelledBy_write (s : Section) : s.SpelledBy s.write := by
  cases s with
  | rawData => exact ⟨0, rfl⟩
  | loadAddress reg routine => exact ⟨false, rfl⟩
  | _ => rfl

variable {s : Section} {piece : Bytes}

theorem length_of_spelledBy (h : s.SpelledBy piece) : piece.length = s.length := by
  cases s with
  | rawData =>
      obtain ⟨operand, rfl⟩ := h
      rfl
  | loadAddress reg routine =>
      obtain ⟨call, rfl⟩ := h
      rfl
  | _ =>
      obtain rfl : piece = _ := h
      rfl

theorem IsEscape.isLiteral (h : s.IsEscape) : s.isLiteral = false := by
  cases s with
  | literal bytes => exact h.elim
  | _ => rfl

theorem IsEscape.even (h : s.IsEscape) : s.length % 2 = 0 := by
  cases s with
  | literal bytes => exact h.elim
  | branch mnemonic target | rawData => exact (by decide : 4 % 2 = 0)
  | library call owner routine | register call reg routine | loadAddress reg routine =>
      exact (by decide : 6 % 2 = 0)

/-- An escape starts with a byte that no extended escape has for its tag. -/
theorem IsEscape.leads (h : s.IsEscape) (hp : s.SpelledBy piece) :
    ∃ a b c d more, piece = a :: b :: c :: d :: more ∧ a ≠ 0 ∧ a ≠ 1 := by
  cases s with
  | literal bytes => exact h.elim
  | rawData =>
      obtain ⟨operand, rfl⟩ := hp
      exact ⟨_, _, _, _, _, rfl, by decide, by decide⟩
  | loadAddress reg routine =>
      obtain ⟨call, rfl⟩ := hp
      cases call <;> exact ⟨_, _, _, _, _, rfl, by decide, by decide⟩
  | library call owner routine | register call reg routine =>
      obtain rfl : piece = _ := hp
      cases call <;> exact ⟨_, _, _, _, _, rfl, by decide, by decide⟩
  | branch mnemonic target =>
      obtain rfl : piece = _ := hp
      cases mnemonic with
      | branch condition =>
          cases condition <;> exact ⟨_, _, _, _, _, rfl, by decide, by decide⟩
      | _ => exact h.elim

end Section

/-! ## 2. Reading escapes -/

/-- The first byte of an escape is its kind below four set bits. -/
theorem escapeKind?_eq_some {high low : UInt8} {kind : Nat} :
    escapeKind? high low = some kind ↔
      kind < 16 ∧ high = 0xF0 ||| UInt8.ofNat kind ∧ low = 0xF1 := by
  have hdigits : high = (high &&& 0xF0) ||| (high &&& 0x0F) := by
    apply UInt8.toNat_inj.1
    show high.toNat = high.toNat &&& 0xF0 ||| high.toNat &&& 0x0F
    rw [← Nat.and_or_distrib_left]
    exact (Nat.and_two_pow_sub_one_of_lt_two_pow (n := 8) high.toNat_lt).symm
  have hkinds : ∀ k : Fin 16, (0xF0 ||| UInt8.ofNat k) &&& 0xF0 = 0xF0 ∧
      ((0xF0 ||| UInt8.ofNat k) &&& 0x0F).toNat = k := by decide
  unfold escapeKind?
  constructor
  · intro h
    split at h
    · rename_i hword
      obtain rfl := Option.some.inj h
      refine ⟨Nat.and_lt_two_pow (n := 4) high.toNat (by decide), ?_, hword.2⟩
      rw [UInt8.ofNat_toNat, ← hword.1]
      exact hdigits
    · cases h
  · rintro ⟨hlt, rfl, rfl⟩
    obtain ⟨hmask, hlow⟩ := hkinds ⟨kind, hlt⟩
    rw [if_pos ⟨hmask, rfl⟩]
    exact congrArg some hlow

variable {s : Section} {code piece rest : Bytes}

theorem readEscape?_short {kind : Nat} (h2 : 2 ≤ kind) (h16 : kind < 16) (operand : UInt16)
    (rest : Bytes) :
    readEscape? ([0xF0 ||| UInt8.ofNat kind, 0xF1] ++ Bytes.ofWord16 operand ++ rest)
      = (short? kind operand).map fun escape => (escape, rest) := by
  have hk : escapeKind? (0xF0 ||| UInt8.ofNat kind) 0xF1 = some kind :=
    escapeKind?_eq_some.2 ⟨h16, rfl, rfl⟩
  show readEscape? (_ :: _ :: (operand >>> 8).toUInt8 :: operand.toUInt8 :: rest) = _
  unfold readEscape?
  dsimp only
  rw [hk, Bytes.word16_ofWord16]
  dsimp only
  rw [if_neg (by omega)]

theorem readEscape?_extended (call : Bool) (tag argument : UInt8) (routine : UInt16)
    (rest : Bytes) :
    readEscape? (extendedEscape call tag argument routine ++ rest)
      = (extended? call tag argument routine).map fun escape => (escape, rest) := by
  have hk : escapeKind? (if call then 0xF1 else 0xF0) 0xF1 = some call.toNat := by
    cases call <;> decide
  have hlt : call.toNat < 2 := by cases call <;> decide
  have hcall : decide (call.toNat = 1) = call := by cases call <;> rfl
  show readEscape? (_ :: _ :: tag :: argument :: (routine >>> 8).toUInt8 :: routine.toUInt8
    :: rest) = _
  unfold readEscape?
  dsimp only
  rw [hk]
  dsimp only
  rw [if_pos hlt, hcall, Bytes.word16_ofWord16]

theorem spelledBy_of_short? {kind : Nat} {operand : UInt16} (h2 : 2 ≤ kind)
    (h : short? kind operand = some s) :
    s.IsEscape ∧ s.SpelledBy ([0xF0 ||| UInt8.ofNat kind, 0xF1] ++ Bytes.ofWord16 operand) := by
  unfold short? at h
  split at h
  · rename_i hdata
    obtain rfl := Option.some.inj h
    subst hdata
    exact ⟨trivial, operand, rfl⟩
  · obtain ⟨condition, hc, rfl⟩ := Option.map_eq_some_iff.1 h
    obtain ⟨hlt, hget⟩ := List.getElem?_eq_some_iff.1 hc
    have hidx : escapeConditions.idxOf condition = kind - 2 := by
      rw [← hget]
      exact List.Nodup.idxOf_getElem (by decide) _ hlt
    have hkind : branchKind (.branch condition) = kind := by
      show escapeConditions.idxOf condition + 2 = kind
      omega
    refine ⟨List.mem_of_getElem? hc, ?_⟩
    show _ = [0xF0 ||| UInt8.ofNat (branchKind (.branch condition)), 0xF1] ++ _
    rw [hkind]

theorem spelledBy_of_extended? {call : Bool} {tag argument : UInt8} {routine : UInt16}
    (h : extended? call tag argument routine = some s) :
    s.IsEscape ∧ s.SpelledBy (extendedEscape call tag argument routine) := by
  unfold extended? at h
  split at h
  · rename_i htag
    obtain rfl := Option.some.inj h
    subst htag
    exact ⟨trivial, rfl⟩
  · split at h
    · rename_i hreg
      obtain rfl := Option.some.inj h
      obtain ⟨rfl, hlt⟩ := hreg
      exact ⟨hlt, rfl⟩
    · rename_i hnot
      split at h
      · rename_i hload
        obtain rfl := Option.some.inj h
        obtain ⟨rfl, hlt⟩ := hload
        have hge : 8 ≤ argument := UInt8.not_lt.1 fun hreg => hnot ⟨rfl, hreg⟩
        refine ⟨?_, call, ?_⟩
        · have hnat : argument.toNat < 16 := UInt8.lt_iff_toNat_lt.1 hlt
          show argument - 8 < 8
          rw [UInt8.lt_iff_toNat_lt, UInt8.toNat_sub_of_le _ _ hge]
          show argument.toNat - 8 < 8
          omega
        · rw [UInt8.sub_add_cancel]
      · cases h

theorem spelledBy_of_readEscape? (h : readEscape? code = some (s, rest)) :
    s.IsEscape ∧ ∃ piece, s.SpelledBy piece ∧ code = piece ++ rest := by
  match code, h with
  | high :: low :: a :: b :: tail, h =>
      cases hk : escapeKind? high low with
      | none => simp [readEscape?, hk] at h
      | some kind =>
          obtain ⟨h16, rfl, rfl⟩ := escapeKind?_eq_some.1 hk
          by_cases h2 : 2 ≤ kind
          · have hshort := readEscape?_short h2 h16 (Bytes.word16 a b) tail
            rw [Bytes.ofWord16_word16] at hshort
            obtain ⟨escape, he, hr⟩ := Option.map_eq_some_iff.1 (hshort.symm.trans h)
            obtain ⟨rfl, rfl⟩ := Prod.mk.inj hr
            obtain ⟨hescape, hspelled⟩ := spelledBy_of_short? h2 he
            rw [Bytes.ofWord16_word16] at hspelled
            exact ⟨hescape, _, hspelled, rfl⟩
          · match tail, h with
            | c :: d :: tail, h =>
                have hbytes : [0xF0 ||| UInt8.ofNat kind, 0xF1, a, b, c, d]
                    = extendedEscape (kind = 1) a b (Bytes.word16 c d) := by
                  rw [extendedEscape, Bytes.ofWord16_word16]
                  match kind, h2 with
                  | 0, _ | 1, _ => rfl
                  | n + 2, h2 => omega
                have hextended := readEscape?_extended (kind = 1) a b (Bytes.word16 c d) tail
                rw [← hbytes] at hextended
                obtain ⟨escape, he, hr⟩ := Option.map_eq_some_iff.1 (hextended.symm.trans h)
                obtain ⟨rfl, rfl⟩ := Prod.mk.inj hr
                obtain ⟨hescape, hspelled⟩ := spelledBy_of_extended? he
                rw [← hbytes] at hspelled
                exact ⟨hescape, _, hspelled, rfl⟩
            | [], h | [_], h => simp [readEscape?, hk, Nat.lt_of_not_le h2] at h
  | [], h | [_], h | [_, _], h | [_, _, _], h => simp [readEscape?] at h

theorem extended?_loadAddress {reg : UInt8} (h : reg < 8) (call : Bool) (routine : UInt16) :
    extended? call 1 (reg + 8) routine = some (.loadAddress reg routine) := by
  have hreg : reg.toNat < 8 := UInt8.lt_iff_toNat_lt.1 h
  have hsum : (reg + 8).toNat = reg.toNat + 8 := by
    rw [UInt8.toNat_add]
    exact Nat.mod_eq_of_lt (by show reg.toNat + 8 < 256; omega)
  have hload : ¬ reg + 8 < 8 := by
    rw [UInt8.lt_iff_toNat_lt, hsum]
    show ¬ reg.toNat + 8 < 8
    omega
  have hlt : reg + 8 < 16 := by
    rw [UInt8.lt_iff_toNat_lt, hsum]
    show reg.toNat + 8 < 16
    omega
  unfold extended?
  rw [if_neg (by decide), if_neg fun hr => hload hr.2, if_pos ⟨rfl, hlt⟩, UInt8.add_sub_cancel]

theorem short?_branch {condition : Condition} (h : condition ∈ escapeConditions)
    (target : UInt16) :
    escapeConditions.idxOf condition < 13 ∧
      short? (escapeConditions.idxOf condition + 2) target
        = some (.branch (.branch condition) target) := by
  have hlt : escapeConditions.idxOf condition < 13 := List.idxOf_lt_length_of_mem h
  refine ⟨hlt, ?_⟩
  unfold short?
  rw [if_neg (by omega), Nat.add_sub_cancel, List.getElem?_idxOf h]
  rfl

theorem readEscape?_of_spelledBy (h : s.IsEscape) (hpiece : s.SpelledBy piece) (rest : Bytes) :
    readEscape? (piece ++ rest) = some (s, rest) := by
  cases s with
  | literal bytes => exact h.elim
  | rawData =>
      obtain ⟨operand, rfl⟩ := hpiece
      exact readEscape?_short (by decide : 2 ≤ 15) (by decide) operand rest
  | loadAddress reg routine =>
      obtain ⟨call, rfl⟩ := hpiece
      rw [readEscape?_extended, extended?_loadAddress h]
      rfl
  | library call owner routine =>
      obtain rfl : piece = _ := hpiece
      exact readEscape?_extended call 0 owner routine rest
  | register call reg routine =>
      obtain rfl : piece = _ := hpiece
      have hreg : extended? call 1 reg routine = some (.register call reg routine) := by
        unfold extended?
        rw [if_neg (by decide), if_pos ⟨rfl, h⟩]
      show readEscape? (extendedEscape call 1 reg routine ++ rest) = _
      rw [readEscape?_extended, hreg]
      rfl
  | branch mnemonic target =>
      obtain rfl : piece = _ := hpiece
      cases mnemonic with
      | branch condition =>
          obtain ⟨hlt, hshort⟩ := short?_branch h target
          show readEscape? ([0xF0 ||| UInt8.ofNat (escapeConditions.idxOf condition + 2), 0xF1]
            ++ Bytes.ofWord16 target ++ rest) = _
          rw [readEscape?_short (by omega) (by omega), hshort]
          rfl
      | _ => exact h.elim

/-- **An escape is read exactly where it is spelled.** -/
theorem readEscape?_eq_some :
    readEscape? code = some (s, rest) ↔
      s.IsEscape ∧ ∃ piece, s.SpelledBy piece ∧ code = piece ++ rest := by
  constructor
  · exact spelledBy_of_readEscape?
  · rintro ⟨hs, piece, hpiece, rfl⟩
    exact readEscape?_of_spelledBy hs hpiece rest

theorem isSome_extended? {call : Bool} {tag argument : UInt8} {routine : UInt16} :
    (extended? call tag argument routine).isSome ↔ tag = 0 ∨ tag = 1 ∧ argument < 16 := by
  unfold extended?
  split
  · rename_i htag
    exact iff_of_true rfl (.inl htag)
  · rename_i htag
    split
    · rename_i hreg
      exact iff_of_true rfl (.inr ⟨hreg.1, UInt8.lt_trans hreg.2 (by decide)⟩)
    · split
      · rename_i hload
        exact iff_of_true rfl (.inr hload)
      · rename_i hload
        exact iff_of_false (by decide) (not_or.2 ⟨htag, hload⟩)

theorem isSome_short? {kind : Nat} (h : kind < 16) (operand : UInt16) :
    (short? kind operand).isSome := by
  unfold short?
  split
  · rfl
  · rename_i hdata
    have hlt : kind - 2 < escapeConditions.length := by
      show kind - 2 < 13
      omega
    rw [List.getElem?_eq_getElem hlt]
    rfl

/-- **Four bytes decide whether an escape stands in front of two more.** -/
theorem isSome_readEscape? {high low a b : UInt8} (h : 2 ≤ rest.length) :
    (readEscape? (high :: low :: a :: b :: rest)).isSome ↔
      ∃ kind, escapeKind? high low = some kind ∧ (2 ≤ kind ∨ a = 0 ∨ a = 1 ∧ b < 16) := by
  match rest, h with
  | c :: d :: rest, _ =>
      unfold readEscape?
      dsimp only
      cases hk : escapeKind? high low with
      | none => simp
      | some kind =>
          obtain ⟨h16, -⟩ := escapeKind?_eq_some.1 hk
          dsimp only
          split
          · rename_i h2
            rw [Option.isSome_map, isSome_extended?]
            simp only [Option.some.injEq, exists_eq_left', Nat.not_le_of_lt h2, false_or]
          · rename_i h2
            rw [Option.isSome_map]
            exact iff_of_true (isSome_short? h16 _) ⟨kind, rfl, .inl (Nat.le_of_not_lt h2)⟩

end AmigaBinary.Routine
