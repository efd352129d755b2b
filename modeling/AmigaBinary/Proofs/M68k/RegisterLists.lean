import AmigaBinary.M68k.Instruction
import AmigaBinary.Proofs.Text.Separation
import Mathlib.Algebra.Ring.Nat

/-!
# Register lists are read in one way

A register list is made of entries between slashes, and an entry of one or two registers. Expanding
the entries gives the registers of the mask (`expand_listEntries`), so a mask has a text of its own
(`registerListText_inj`), and a mask in the reverse order as well (`reverseMask_inj`).
-/

namespace AmigaBinary.M68k

open Text (Lacks)

variable {bank c : Char} {bits : List Bool}

/-! ## 1. Set bits -/

/-- The numbers of the set bits in a list, which are counted from `number`. -/
def setBits : List Bool → Nat → List Nat
  | [], _ => []
  | true :: bits, number => number :: setBits bits (number + 1)
  | false :: bits, number => setBits bits (number + 1)

theorem setBits_append (front back : List Bool) (number : Nat) :
    setBits (front ++ back) number
      = setBits front number ++ setBits back (number + front.length) := by
  induction front generalizing number with
  | nil => rfl
  | cons bit front ih =>
      have hnumber : number + (bit :: front).length = number + 1 + front.length := by
        rw [List.length_cons]
        omega
      rw [hnumber]
      cases bit with
      | true => exact congrArg (number :: ·) (ih (number + 1))
      | false => exact ih (number + 1)

theorem le_of_mem_setBits {number n : Nat} (h : n ∈ setBits bits number) : number ≤ n := by
  induction bits generalizing number with
  | nil => exact absurd h List.not_mem_nil
  | cons bit bits ih =>
      cases bit with
      | true =>
          rcases List.mem_cons.1 h with rfl | h
          · exact Nat.le_refl _
          · exact Nat.le_of_succ_le (ih h)
      | false => exact Nat.le_of_succ_le (ih h)

/-- **Bits are told from the numbers of those that are set.** -/
theorem setBits_inj {bits' : List Bool} {number : Nat} (hlen : bits.length = bits'.length)
    (h : setBits bits number = setBits bits' number) : bits = bits' := by
  -- a set bit comes first, and behind a bit that is not set all numbers are greater
  have hfirst : ∀ {rest rest' : List Bool} {n : Nat},
      n :: setBits rest (n + 1) ≠ setBits rest' (n + 1) := fun h =>
    absurd (le_of_mem_setBits (h ▸ List.mem_cons_self ..)) (Nat.not_succ_le_self _)
  induction bits generalizing bits' number with
  | nil => exact (List.length_eq_zero_iff.1 hlen.symm).symm
  | cons bit bits ih =>
      obtain ⟨bit', bits', rfl⟩ := List.exists_cons_of_length_eq_add_one hlen.symm
      have hrest : bits.length = bits'.length := Nat.succ.inj hlen
      cases bit with
      | true =>
          cases bit' with
          | true => rw [ih hrest (List.cons.inj h).2]
          | false => exact absurd h hfirst
      | false =>
          cases bit' with
          | true => exact absurd h.symm hfirst
          | false => rw [ih hrest h]

/-! ## 2. Entries -/

/-- The number of the first register of a bank in a mask. -/
def bankBase (bank : Char) : Nat :=
  if bank = 'A' then 8 else 0

/-- The number that a digit stands for. -/
def digitValue (digit : Char) : Nat :=
  digit.toNat - '0'.toNat

/-- The registers that an entry stands for, by their numbers in a mask. -/
def expandEntry (entry : String) : List Nat :=
  match entry.toList with
  | [bank, digit] => if bank = '\x7b' then [] else [bankBase bank + digitValue digit]
  | [bank, first, _, _, last] =>
      List.range' (bankBase bank + digitValue first) (digitValue last + 1 - digitValue first)
  | _ => []

theorem digitValue_digitChar {n : Nat} (h : n < 10) : digitValue (Nat.digitChar n) = n := by
  have hall : ∀ n < 10, digitValue (Nat.digitChar n) = n := by decide
  exact hall n h

theorem toList_registerName {reg : Nat} (h : reg < 10) :
    (registerName bank reg).toList = [bank, Nat.digitChar reg] := by
  rw [registerName, String.toList_append, String.toList_singleton, Nat.toString_eq_ofList_toDigits,
    String.toList_ofList, Nat.toDigits_of_lt_base h]
  rfl

theorem expandEntry_registerName {reg : Nat} (hbank : bank ≠ '\x7b') (h : reg < 10) :
    expandEntry (registerName bank reg) = [bankBase bank + reg] := by
  unfold expandEntry
  rw [toList_registerName h]
  dsimp only
  rw [if_neg hbank, digitValue_digitChar h]

theorem expandEntry_range {first last : Nat} (hf : first < 10) (hl : last < 10) :
    expandEntry (registerName bank first ++ "-" ++ registerName bank last)
      = List.range' (bankBase bank + first) (last + 1 - first) := by
  have hdash : "-".toList = ['-'] := by decide
  unfold expandEntry
  rw [String.toList_append, String.toList_append, toList_registerName hf, toList_registerName hl,
    hdash]
  show List.range' (bankBase bank + digitValue (Nat.digitChar first))
    (digitValue (Nat.digitChar last) + 1 - digitValue (Nat.digitChar first)) = _
  rw [digitValue_digitChar hf, digitValue_digitChar hl]

/-- A run stands for its registers. -/
theorem expand_runText {first last : Nat} (hbank : bank ≠ '\x7b') (hle : first ≤ last)
    (hlt : last < 10) :
    (runText bank first last).flatMap expandEntry
      = List.range' (bankBase bank + first) (last + 1 - first) := by
  have hf : first < 10 := Nat.lt_of_le_of_lt hle hlt
  unfold runText
  split
  · rename_i heq
    subst heq
    rw [List.flatMap_singleton, expandEntry_registerName hbank hf, Nat.add_sub_cancel_left]
    rfl
  · split
    · rename_i heq
      subst heq
      have htwo : first + 1 + 1 - first = 2 := by omega
      rw [List.flatMap_cons, List.flatMap_singleton, expandEntry_registerName hbank hf,
        expandEntry_registerName hbank hlt, htwo]
      rfl
    · rw [List.flatMap_singleton, expandEntry_range hf hlt]

/-- The registers of the run that is still open in front of register `reg`. -/
def openRun (bank : Char) (reg : Nat) : Option Nat → List Nat
  | none => []
  | some start => List.range' (bankBase bank + start) (reg - start)

/-- **Runs stand for the set bits**, and for the run that is open in front of them. -/
theorem expand_bankRuns (hbank : bank ≠ '\x7b') (bits : List Bool) (reg : Nat) (start : Option Nat)
    (hstart : ∀ first ∈ start, first < reg) (hlen : reg + bits.length ≤ 10) :
    (bankRuns bank bits reg start).flatMap expandEntry
      = openRun bank reg start ++ setBits bits (bankBase bank + reg) := by
  fun_induction bankRuns bank bits reg start with
  | case1 reg => rfl
  | case2 reg start =>
      have hlt := hstart start rfl
      rw [List.length_nil] at hlen
      rw [expand_runText hbank (by omega) (by omega), Nat.sub_add_cancel (by omega)]
      exact (List.append_nil _).symm
  | case3 bits reg ih =>
      rw [List.length_cons] at hlen
      have hrun : openRun bank (reg + 1) (some reg) = [bankBase bank + reg] := by
        rw [openRun, Nat.add_sub_cancel_left]
        rfl
      rw [ih (by simp) (by omega), hrun]
      rfl
  | case4 bits reg start ih =>
      have hlt := hstart start rfl
      rw [List.length_cons] at hlen
      have hrun : openRun bank (reg + 1) (some start)
          = openRun bank reg (some start) ++ [bankBase bank + reg] := by
        have hlast : bankBase bank + reg = bankBase bank + start + 1 * (reg - start) := by omega
        rw [openRun, openRun, Nat.succ_sub (by omega), List.range'_concat, ← hlast]
      rw [ih (by intro first hfirst; cases hfirst; omega) (by omega), hrun, List.append_assoc]
      rfl
  | case5 bits reg ih =>
      rw [List.length_cons] at hlen
      exact ih (by simp) (by omega)
  | case6 bits reg start ih =>
      have hlt := hstart start rfl
      rw [List.length_cons] at hlen
      rw [List.flatMap_append, expand_runText hbank (by omega) (by omega), ih (by simp) (by omega),
        Nat.sub_add_cancel (by omega)]
      rfl

/-! ## 3. Register lists -/

/-- The sixteen bits of a mask, from the lowest on. -/
def listedBits (mask : UInt16) : List Bool :=
  maskBits mask 0 ++ maskBits mask 8

/-- The entries of a register list. -/
def listEntries (mask : UInt16) : List String :=
  if mask = 0 then ["\x7b\x7d"]
  else bankRuns 'D' (maskBits mask 0) 0 none ++ bankRuns 'A' (maskBits mask 8) 0 none

theorem registerListText_eq (mask : UInt16) :
    registerListText mask = String.intercalate "/" (listEntries mask) := by
  unfold registerListText listEntries
  split
  · rw [String.intercalate_singleton]
  · rfl

theorem length_maskBits (mask : UInt16) (low : Nat) : (maskBits mask low).length = 8 := by
  rw [maskBits, List.length_map, List.length_range]

/-- **The entries of a register list stand for the registers of the mask.** -/
theorem expand_listEntries (mask : UInt16) :
    (listEntries mask).flatMap expandEntry = setBits (listedBits mask) 0 := by
  have hbank : ∀ bank low, bank ≠ '\x7b' → (bankRuns bank (maskBits mask low) 0 none).flatMap
      expandEntry = setBits (maskBits mask low) (bankBase bank) := fun bank low hbank =>
    expand_bankRuns hbank (maskBits mask low) 0 none (by simp) (by simp [length_maskBits])
  unfold listEntries listedBits
  split
  · rename_i h
    subst h
    decide
  · rw [List.flatMap_append, hbank 'D' 0 (by decide), hbank 'A' 8 (by decide), setBits_append,
      length_maskBits]
    rfl

theorem testBit_of_maskBits {v w : UInt16} {low i : Nat} (h : maskBits v low = maskBits w low)
    (hi : i < 8) : v.toNat.testBit (low + i) = w.toNat.testBit (low + i) :=
  List.map_inj_left.1 h i (List.mem_range.2 hi)

/-- Words are told from their sixteen bits. -/
theorem eq_of_testBit {v w : UInt16} (h : ∀ i < 16, v.toNat.testBit i = w.toNat.testBit i) :
    v = w := by
  refine UInt16.toNat_inj.1 (Nat.eq_of_testBit_eq fun i => ?_)
  by_cases hi : i < 16
  · exact h i hi
  · have hpow : 2 ^ 16 ≤ 2 ^ i := Nat.pow_le_pow_right (by decide) (Nat.le_of_not_lt hi)
    rw [Nat.testBit_lt_two_pow (Nat.lt_of_lt_of_le v.toNat_lt hpow),
      Nat.testBit_lt_two_pow (Nat.lt_of_lt_of_le w.toNat_lt hpow)]

theorem listedBits_inj {v w : UInt16} (h : listedBits v = listedBits w) : v = w := by
  have hlength : (maskBits v 0).length = (maskBits w 0).length := by
    rw [length_maskBits, length_maskBits]
  obtain ⟨hdata, haddress⟩ := List.append_inj h hlength
  refine eq_of_testBit fun i hi => ?_
  by_cases hlow : i < 8
  · have hbit := testBit_of_maskBits hdata hlow
    rwa [Nat.zero_add] at hbit
  · have hbit := testBit_of_maskBits haddress (show i - 8 < 8 by omega)
    rwa [Nat.add_sub_cancel' (Nat.le_of_not_lt hlow)] at hbit

/-- **A mask is told from the entries of its register list.** -/
theorem listEntries_inj {v w : UInt16} (h : listEntries v = listEntries w) : v = w := by
  have hbits := congrArg (List.flatMap expandEntry) h
  rw [expand_listEntries, expand_listEntries] at hbits
  refine listedBits_inj (setBits_inj ?_ hbits)
  rw [listedBits, listedBits, List.length_append, List.length_append, length_maskBits,
    length_maskBits, length_maskBits, length_maskBits]

theorem listEntries_ne_nil (mask : UInt16) : listEntries mask ≠ [] := by
  intro h
  have hbits := expand_listEntries mask
  rw [h] at hbits
  have hzero : setBits (listedBits 0) 0 = setBits (listedBits mask) 0 := hbits
  have hmask : 0 = mask := listedBits_inj (setBits_inj (by
    simp [listedBits, length_maskBits]) hzero)
  subst hmask
  cases h

theorem lacks_registerName {reg : Nat} (hbank : c ≠ bank) (hdigit : ∀ d, Nat.digitChar d ≠ c) :
    Lacks (registerName bank reg) c := by
  rw [registerName, Nat.toString_eq_ofList_toDigits]
  exact Text.lacks_append.2 ⟨Text.lacks_singleton.2 hbank,
    Text.lacks_ofList.2 (Text.not_mem_toDigits (by decide) hdigit)⟩

/-- The entries of a bank have its letter, digits and dashes in them. -/
theorem lacks_bankRuns (hbank : c ≠ bank) (hdigit : ∀ d, Nat.digitChar d ≠ c) (hdash : Lacks "-" c)
    (bits : List Bool) (reg : Nat) (start : Option Nat) :
    ∀ entry ∈ bankRuns bank bits reg start, Lacks entry c := by
  have hname : ∀ reg, Lacks (registerName bank reg) c := fun _ => lacks_registerName hbank hdigit
  have hrun : ∀ first last, ∀ entry ∈ runText bank first last, Lacks entry c := by
    intro first last
    unfold runText
    split
    · simp [hname]
    · split <;> simp [hname, hdash]
  fun_induction bankRuns bank bits reg start with
  | case1 => simp
  | case2 reg start => exact hrun _ _
  | case3 bits reg ih => exact ih
  | case4 bits reg start ih => exact ih
  | case5 bits reg ih => exact ih
  | case6 bits reg start ih => exact List.forall_mem_append.2 ⟨hrun _ _, ih⟩

theorem lacks_listEntries {mask : UInt16} (hbraces : Lacks "\x7b\x7d" c) (hdata : c ≠ 'D')
    (haddress : c ≠ 'A') (hdigit : ∀ d, Nat.digitChar d ≠ c) (hdash : Lacks "-" c) :
    ∀ entry ∈ listEntries mask, Lacks entry c := by
  unfold listEntries
  split
  · simpa using hbraces
  · exact List.forall_mem_append.2 ⟨lacks_bankRuns hdata hdigit hdash _ _ _,
      lacks_bankRuns haddress hdigit hdash _ _ _⟩

/-- **A register list is that of one mask.** -/
theorem registerListText_inj {v w : UInt16} : registerListText v = registerListText w ↔ v = w := by
  constructor
  · intro h
    have hslash : ∀ mask, ∀ entry ∈ listEntries mask, Lacks entry '/' := fun mask =>
      lacks_listEntries (by decide) (by decide) (by decide)
        (fun _ => Nat.digitChar_ne '/' (by decide)) (by decide)
    rw [registerListText_eq, registerListText_eq] at h
    exact listEntries_inj (Text.intercalate_inj (hslash v) (hslash w) (listEntries_ne_nil v)
      (listEntries_ne_nil w) h)
  · rintro rfl
    rfl

/-! ## 4. Masks in reverse order -/

/-- The number of the first `n` bits of a mask, the lowest of which comes first. -/
def reversedNumber (mask : UInt16) : Nat → Nat
  | 0 => 0
  | n + 1 => 2 * reversedNumber mask n + (mask.toNat.testBit n).toNat

theorem reversedNumber_lt (mask : UInt16) (n : Nat) : reversedNumber mask n < 2 ^ n := by
  induction n with
  | zero => exact Nat.zero_lt_one
  | succ n ih =>
      have hbit := Bool.toNat_le (mask.toNat.testBit n)
      rw [reversedNumber, Nat.pow_succ]
      omega

theorem testBit_of_reversedNumber {v w : UInt16} {n : Nat}
    (h : reversedNumber v n = reversedNumber w n) :
    ∀ i < n, v.toNat.testBit i = w.toNat.testBit i := by
  induction n with
  | zero => exact fun i hi => absurd hi (Nat.not_lt_zero i)
  | succ n ih =>
      rw [reversedNumber, reversedNumber] at h
      have hv := Bool.toNat_le (v.toNat.testBit n)
      have hw := Bool.toNat_le (w.toNat.testBit n)
      have hrest : reversedNumber v n = reversedNumber w n := by omega
      have hlast : v.toNat.testBit n = w.toNat.testBit n := by
        rw [Bool.eq_iff_iff, ← Bool.toNat_eq_one, ← Bool.toNat_eq_one]
        omega
      intro i hi
      rcases Nat.lt_succ_iff_lt_or_eq.1 hi with hi | rfl
      · exact ih hrest i hi
      · exact hlast

/-- Bit `i` has weight `15 - i`, so the sum of the first bits is their number in the top bits. -/
theorem foldl_weights (mask : UInt16) {n : Nat} (h : n ≤ 16) :
    (List.range n).foldl (fun sum i => sum + if mask.toNat.testBit i then 1 <<< (15 - i) else 0) 0
      = 2 ^ (16 - n) * reversedNumber mask n := by
  induction n with
  | zero => rfl
  | succ n ih =>
      have hweight : 2 ^ (16 - n) = 2 * 2 ^ (16 - (n + 1)) := by
        rw [← Nat.pow_succ']
        congr 1
        omega
      have hbit : (if mask.toNat.testBit n then 1 <<< (15 - n) else 0)
          = 2 ^ (16 - (n + 1)) * (mask.toNat.testBit n).toNat := by
        rw [Nat.one_shiftLeft, show 15 - n = 16 - (n + 1) by omega]
        cases mask.toNat.testBit n
        · exact (Nat.mul_zero _).symm
        · exact (Nat.mul_one _).symm
      rw [List.range_succ, List.foldl_append, ih (Nat.le_of_succ_le h), List.foldl_cons,
        List.foldl_nil, hbit, hweight, reversedNumber, Nat.mul_add, Nat.mul_left_comm,
        Nat.mul_assoc, Nat.mul_left_comm]

/-- **A mask is told from the same mask in reverse order.** -/
theorem reverseMask_inj {v w : UInt16} : reverseMask v = reverseMask w ↔ v = w := by
  constructor
  · intro h
    have hnumber : ∀ mask, (reverseMask mask).toNat = reversedNumber mask 16 := by
      intro mask
      rw [reverseMask, foldl_weights mask (Nat.le_refl 16), Nat.sub_self, Nat.pow_zero, Nat.one_mul]
      exact UInt16.toNat_ofNat_of_lt' (reversedNumber_lt mask 16)
    have hsame := congrArg UInt16.toNat h
    rw [hnumber, hnumber] at hsame
    exact eq_of_testBit (testBit_of_reversedNumber hsame)
  · rintro rfl
    rfl

end AmigaBinary.M68k
