import AmigaBinary.Proofs.Decrunch.Output
import AmigaBinary.Proofs.Decrunch.StoneCracker.Code
import AmigaBinary.Total

/-!
# Operations on the output

An operation is a command with the bytes of a run. It has a written form (`Operation.bits`) and an
effect on the bytes produced so far (`Operation.apply`). The decoder carries out each operation
where it is written (`step_bits`), and so all of them up to the end of the output (`expand_bits`).
-/

namespace AmigaBinary.Decrunch.StoneCracker

/-! ## 1. Operations -/

/-- What is done to the output. -/
inductive Operation where
  /-- One byte is written. -/
  | literal (byte : UInt8)
  /-- Bytes are written, from the end of the output to its start. -/
  | literals (bytes : Bytes)
  /-- Bytes are copied. A distance of 0 names the byte that was written last. -/
  | copy (distance count : Nat)
  deriving DecidableEq, Repr

namespace Operation

/-- The command of an operation. -/
def command : Operation → Command
  | .literal byte => .literal byte.toNat
  | .literals bytes => .literals bytes.length
  | .copy distance count => .copy distance count

/-- The number of bytes that an operation writes. -/
def length (op : Operation) : Nat :=
  op.command.count

/-- What follows the command. -/
def operand : Operation → List Bool
  | .literals bytes => byteBits bytes
  | .literal _ | .copy _ _ => []

/-- The written form of an operation. -/
def bits (eff : Nat) (op : Operation) : List Bool :=
  op.command.code eff ++ op.operand

/-- The effect of an operation on the bytes produced so far. -/
def apply : Operation → Bytes → Bytes
  | .literal byte, out => byte :: out
  | .literals bytes, out => bytes.reverse ++ out
  | .copy distance count, out => copyAhead (distance + 1) count out

/-- A copy names a byte that is there: `produced` bytes have been. -/
def Reaches (produced : Nat) : Operation → Prop
  | .copy distance _ => distance + 1 ≤ produced
  | .literal _ | .literals _ => True

instance (produced : Nat) (op : Operation) : Decidable (op.Reaches produced) := by
  cases op <;> unfold Reaches <;> infer_instance

theorem length_apply (op : Operation) (out : Bytes) :
    (op.apply out).length = op.length + out.length := by
  cases op with
  | literal byte =>
      show (byte :: out).length = 1 + out.length
      rw [List.length_cons, Nat.add_comm]
  | literals bytes =>
      show (bytes.reverse ++ out).length = bytes.length + out.length
      rw [List.length_append, List.length_reverse]
  | copy distance count => exact length_copyAhead (distance + 1) count out

theorem length_pos {eff : Nat} {op : Operation} (h : op.command.Valid eff) : 0 < op.length := by
  cases op with
  | literal byte => exact Nat.one_pos
  | literals bytes => exact Nat.lt_of_lt_of_le (Nat.succ_pos 13) h.1
  | copy distance count => exact Nat.lt_of_lt_of_le (Nat.succ_pos 1) h.1

end Operation

/-- Each copy names a byte that is there when it is made, `produced` bytes being there before the
    operations. -/
def CopiesReach (produced : Nat) : List Operation → Prop
  | [] => True
  | op :: ops => op.Reaches produced ∧ CopiesReach (produced + op.length) ops

instance decidableCopiesReach (produced : Nat) : (ops : List Operation) →
    Decidable (CopiesReach produced ops)
  | [] => isTrue trivial
  | op :: ops => @instDecidableAnd _ _ _ (decidableCopiesReach (produced + op.length) ops)

/-- The effect of operations on the bytes produced so far. -/
def applyAll (ops : List Operation) (out : Bytes) : Bytes :=
  ops.foldl (fun out op => op.apply out) out

/-- The bytes that operations stand for. -/
def denote (ops : List Operation) : Bytes :=
  applyAll ops []

theorem length_applyAll (ops : List Operation) (out : Bytes) :
    (applyAll ops out).length = total Operation.length ops + out.length := by
  induction ops generalizing out with
  | nil =>
      rw [total_nil, Nat.zero_add]
      rfl
  | cons op ops ih =>
      have h := ih (op.apply out)
      rw [Operation.length_apply] at h
      show (applyAll ops (op.apply out)).length = _
      rw [h, total_cons]
      omega

/-! ## 2. One operation -/

section Step

variable {exhausted : Error} {eff capacity : Nat} {out next : Output} {bits rest : List Bool}

/-- **What a command tells is done** to an output with enough room, with the bytes behind it. -/
theorem run_operand (exhausted : Error) {op : Operation} (hpos : 0 < op.length)
    (hcap : out.remaining + out.produced.length = capacity) (hfits : op.length ≤ out.remaining)
    (hreach : op.Reaches out.produced.length) (rest : List Bool) :
    op.command.run exhausted capacity out (op.operand ++ rest)
      = .ok (⟨out.remaining - op.length, op.apply out.produced⟩, rest) := by
  cases op with
  | literal byte =>
      have hbyte : UInt8.ofNat byte.toNat = byte := by simp
      have hw : out.literal .stoneCracker byte.toNat
          = .ok ⟨out.remaining - 1, byte :: out.produced⟩ :=
        Output.literal_eq_ok.2 ⟨hfits, by rw [hbyte]; rfl⟩
      exact map_eq_ok.2 ⟨_, hw, rfl⟩
  | literals bytes => exact Output.literalRun_eq_ok.2 ⟨bytes, rfl, hfits, rfl, rfl⟩
  | copy distance count =>
      have hreach' : distance + 1 ≤ out.produced.length := hreach
      have hpos' : 0 < count := hpos
      have hfits' : count ≤ out.remaining := hfits
      have hc : out.copy .stoneCracker capacity (distance + 1) count
          = .ok ⟨out.remaining - count, copyAhead (distance + 1) count out.produced⟩ :=
        Output.copy_eq_ok.2 ⟨hfits', by omega, rfl⟩
      exact map_eq_ok.2 ⟨_, hc, rfl⟩

/-- **An operation is carried out where it is written.** -/
theorem step_bits (exhausted : Error) (heff : 10 ≤ eff) {op : Operation}
    (hv : op.command.Valid eff) (hmax : capacity ≤ maxLength)
    (hcap : out.remaining + out.produced.length = capacity)
    (hfits : op.length ≤ out.remaining) (hreach : op.Reaches out.produced.length)
    (rest : List Bool) :
    step exhausted eff capacity out (op.bits eff ++ rest)
      = .ok (⟨out.remaining - op.length, op.apply out.produced⟩, rest) := by
  have hcount : op.command.count ≤ maxLength := Nat.le_trans hfits (by omega)
  have hread := readCommand_code exhausted heff hv (op.operand ++ rest)
  rw [Command.capped_of_le hcount] at hread
  have hrun := run_operand exhausted (Operation.length_pos hv) hcap hfits hreach rest
  unfold step
  rw [Operation.bits, List.append_assoc]
  exact bind_eq_ok.2 ⟨_, hread, hrun⟩

/-! ## 3. All operations -/

theorem expand_full (h : out.remaining = 0) :
    expand exhausted eff capacity out bits = .ok out := by
  rw [expand, if_pos h]

theorem expand_step (h : out.remaining ≠ 0)
    (hs : step exhausted eff capacity out bits = .ok (next, rest)) :
    expand exhausted eff capacity out bits = expand exhausted eff capacity next rest := by
  rw [expand, if_neg h]
  split
  · rename_i e he
    rw [hs] at he
    cases he
  · rename_i o b he
    rw [hs] at he
    cases he
    rfl

end Step

/-- **Operations that fill the output are carried out** as they are written, and what is behind them
    is not read. -/
theorem expand_bits (exhausted : Error) {eff capacity : Nat} (heff : 10 ≤ eff)
    (hmax : capacity ≤ maxLength) (rest : List Bool) (ops : List Operation) (out : Output)
    (hv : ∀ op ∈ ops, op.command.Valid eff) (hreach : CopiesReach out.produced.length ops)
    (hcap : out.remaining + out.produced.length = capacity)
    (hfill : total Operation.length ops = out.remaining) :
    expand exhausted eff capacity out (ops.flatMap (Operation.bits eff) ++ rest)
      = .ok ⟨0, applyAll ops out.produced⟩ := by
  induction ops generalizing out with
  | nil =>
      have h0 : out.remaining = 0 := hfill.symm
      rw [expand_full h0, ← h0]
      rfl
  | cons op ops ih =>
      rw [total_cons] at hfill
      have hvalid := hv op List.mem_cons_self
      have hpos := Operation.length_pos hvalid
      have happly : (op.apply out.produced).length = out.produced.length + op.length := by
        rw [Operation.length_apply, Nat.add_comm]
      have hnext := ih ⟨out.remaining - op.length, op.apply out.produced⟩
        (fun op' h => hv op' (List.mem_cons_of_mem op h)) (by rw [happly]; exact hreach.2)
        (by dsimp only; omega) (by dsimp only; omega)
      have hstep := step_bits exhausted heff hvalid hmax hcap (by omega) hreach.1
        (ops.flatMap (Operation.bits eff) ++ rest)
      rw [List.flatMap_cons, List.append_assoc, expand_step (by omega) hstep]
      exact hnext

end AmigaBinary.Decrunch.StoneCracker
