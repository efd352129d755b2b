import AmigaBinary.Decrunch.Output
import AmigaBinary.Proofs.Decrunch.Bits

/-!
# Writing an output backwards

What a write to an output needs, and what it leaves: literal bytes come in front of the produced
ones, the last of them first in the file (`literals_eq_ok`), and a copy takes each byte from the
same distance ahead of the place where it goes (`copy_eq_ok`), so that it may read bytes it has just
written. Both are equivalences: there is no other way to succeed.
-/

namespace AmigaBinary.Decrunch

/-! ## 1. Literal bytes -/

/-- The bits of literal bytes, one byte behind the other. -/
def byteBits (bytes : Bytes) : List Bool :=
  bytes.flatMap fun byte => highestFirst 8 byte.toNat

theorem byteBits_cons (byte : UInt8) (bytes : Bytes) :
    byteBits (byte :: bytes) = highestFirst 8 byte.toNat ++ byteBits bytes := rfl

theorem length_byteBits (bytes : Bytes) : (byteBits bytes).length = 8 * bytes.length := by
  induction bytes with
  | nil => rfl
  | cons byte bytes ih =>
      rw [byteBits_cons, List.length_append, length_highestFirst, ih, List.length_cons]
      omega

theorem byteBits_inj {a b : Bytes} (hl : a.length = b.length) (h : byteBits a = byteBits b) :
    a = b := by
  induction a generalizing b with
  | nil => exact (List.length_eq_zero_iff.1 hl.symm).symm
  | cons x a ih =>
      cases b with
      | nil => simp at hl
      | cons y b =>
          rw [byteBits_cons, byteBits_cons] at h
          obtain ⟨hx, ht⟩ := List.append_inj h (by simp)
          have he := highestFirst_inj x.toNat_lt y.toNat_lt hx
          rw [UInt8.toNat_inj.1 he, ih (by simpa using hl) ht]

namespace Output

variable {codec : Codec} {exhausted : Error} {out next : Output}

theorem require_eq_ok {count : Nat} : out.require codec count = .ok () ↔ count ≤ out.remaining := by
  unfold require
  split <;> simp_all

theorem literal_eq_ok {value : Nat} :
    out.literal codec value = .ok next ↔
      1 ≤ out.remaining ∧ next = out.push (UInt8.ofNat value) := by
  unfold literal
  cases hr : out.require codec 1 with
  | ok u =>
      have h1 := require_eq_ok.1 hr
      simp only [Except.ok.injEq]
      exact ⟨fun h => ⟨h1, h.symm⟩, fun h => h.2.symm⟩
  | error e =>
      have h1 : ¬ 1 ≤ out.remaining := fun h => by
        rw [require_eq_ok.2 h] at hr
        cases hr
      simp [h1]

/-- **A run of literals is there and fits, or it fails.** -/
theorem literals_eq_ok {count : Nat} {bits rest : List Bool} :
    literals codec exhausted count out bits = .ok (next, rest) ↔
      ∃ bytes : Bytes, bytes.length = count ∧ count ≤ out.remaining ∧
        bits = byteBits bytes ++ rest ∧
        next = ⟨out.remaining - count, bytes.reverse ++ out.produced⟩ := by
  induction count generalizing out bits with
  | zero =>
      simp only [literals, Except.ok.injEq, Prod.mk.injEq]
      constructor
      · rintro ⟨rfl, rfl⟩
        exact ⟨[], rfl, Nat.zero_le _, rfl, rfl⟩
      · rintro ⟨bytes, hl, -, rfl, rfl⟩
        obtain rfl := List.length_eq_zero_iff.1 hl
        exact ⟨rfl, rfl⟩
  | succ count ih =>
      rw [literals, readBits_bind_eq_ok]
      constructor
      · rintro ⟨value, bits', hv, rfl, h⟩
        obtain ⟨out', ho, h⟩ := bind_eq_ok.1 h
        obtain ⟨h1, rfl⟩ := literal_eq_ok.1 ho
        obtain ⟨bytes, hl, hc, rfl, rfl⟩ := ih.1 h
        have hv' : (UInt8.ofNat value).toNat = value := by
          rw [UInt8.toNat_ofNat']
          exact Nat.mod_eq_of_lt hv
        simp only [push] at hc ⊢
        refine ⟨UInt8.ofNat value :: bytes, by rw [List.length_cons, hl], by omega, ?_, ?_⟩
        · rw [byteBits_cons, hv', List.append_assoc]
        · rw [List.reverse_cons, List.append_assoc, Nat.sub_sub, Nat.add_comm 1]
          rfl
      · rintro ⟨bytes, hl, hc, rfl, rfl⟩
        cases bytes with
        | nil => simp at hl
        | cons byte bytes =>
            simp only [List.length_cons, Nat.add_right_cancel_iff] at hl
            have hb : UInt8.ofNat byte.toNat = byte := by simp
            refine ⟨byte.toNat, byteBits bytes ++ rest, byte.toNat_lt,
              by rw [byteBits_cons, List.append_assoc], ?_⟩
            refine bind_eq_ok.2 ⟨_, literal_eq_ok.2 ⟨by omega, rfl⟩, ih.2 ⟨bytes, hl, ?_, rfl, ?_⟩⟩
            · show count ≤ out.remaining - 1
              omega
            · rw [hb]
              show _ = Output.mk (out.remaining - 1 - count) (bytes.reverse ++ byte :: out.produced)
              rw [List.reverse_cons, List.append_assoc, Nat.sub_sub, Nat.add_comm 1]
              rfl

/-- A run whose length is checked first succeeds as one whose bytes are checked one by one. -/
theorem literalRun_eq_ok {count : Nat} {bits rest : List Bool} :
    literalRun codec exhausted count out bits = .ok (next, rest) ↔
      ∃ bytes : Bytes, bytes.length = count ∧ count ≤ out.remaining ∧
        bits = byteBits bytes ++ rest ∧
        next = ⟨out.remaining - count, bytes.reverse ++ out.produced⟩ := by
  unfold literalRun
  cases hr : out.require codec count with
  | ok u => exact literals_eq_ok
  | error e =>
      have hc : ¬ count ≤ out.remaining := fun h => by
        rw [require_eq_ok.2 h] at hr
        cases hr
      simp [hc]

end Output

/-! ## 2. Copies -/

/-- So many bytes in front of `out`, each from a distance ahead of its own place. The place itself
    and what lies behind `out` have not been written and read as zero. -/
def copyAhead (distance : Nat) : Nat → Bytes → Bytes
  | 0, out => out
  | count + 1, out => copyAhead distance count ((0 :: out).getD distance 0 :: out)

theorem length_copyAhead (distance count : Nat) (out : Bytes) :
    (copyAhead distance count out).length = count + out.length := by
  induction count generalizing out with
  | zero => rw [copyAhead, Nat.zero_add]
  | succ count ih =>
      rw [copyAhead, ih, List.length_cons]
      omega

namespace Output

variable {codec : Codec} {out next : Output}

theorem ahead_eq_getD (distance : Nat) (out : Output) :
    out.ahead distance = (0 :: out.produced).getD distance 0 := by
  cases distance <;> rfl

theorem pushCopies_eq (distance count : Nat) (out : Output) :
    out.pushCopies distance count
      = ⟨out.remaining - count, copyAhead distance count out.produced⟩ := by
  induction count generalizing out with
  | zero => rfl
  | succ count ih =>
      rw [pushCopies, ih, copyAhead, ahead_eq_getD]
      show Output.mk (out.remaining - 1 - count) _ = _
      rw [Nat.sub_sub, Nat.add_comm 1]
      rfl

/-- **A copy fits, and its farthest byte is inside of the buffer, or it fails.** -/
theorem copy_eq_ok {capacity distance count : Nat} :
    out.copy codec capacity distance count = .ok next ↔
      count ≤ out.remaining ∧ out.remaining - 1 + distance < capacity ∧
        next = ⟨out.remaining - count, copyAhead distance count out.produced⟩ := by
  unfold copy
  cases hr : out.require codec count with
  | error e =>
      have hc : ¬ count ≤ out.remaining := fun h => by
        rw [require_eq_ok.2 h] at hr
        cases hr
      simp [hc]
  | ok u =>
      have hc := require_eq_ok.1 hr
      dsimp only
      split
      · rename_i hs
        rw [Except.ok.injEq, pushCopies_eq]
        exact ⟨fun h => ⟨hc, hs, h.symm⟩, fun h => h.2.2.symm⟩
      · rename_i hs
        simp [hs]

end Output

end AmigaBinary.Decrunch
