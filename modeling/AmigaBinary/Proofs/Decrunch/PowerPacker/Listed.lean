import AmigaBinary.Proofs.Decrunch.Checked
import AmigaBinary.Proofs.Decrunch.PowerPacker.Token

/-!
# Unpacking to a list

A decoder of PowerPacker data needs no buffer: it prepends to the list of the bytes produced so far,
and rejects a copy whose offset is not below their number. It answers as `unpack` does, errors
included (`unpackListed_eq`).
-/

namespace AmigaBinary.Decrunch.PowerPacker

/-! ## 1. Rounds -/

/-- The copy at the front of a stream, from the list of the produced bytes. -/
def runCopyListed (table : OffsetTable) (out : Output) (bits : List Bool) :
    Except Error (Output × List Bool) := do
  let (offset, count, bits) ← readCopy table bits
  let out ← out.copyListed .powerPacker offset count
  .ok (out, bits)

theorem remaining_of_runCopyListed {table : OffsetTable} {out next : Output}
    {bits rest : List Bool} (h : runCopyListed table out bits = .ok (next, rest)) :
    next.remaining < out.remaining ∧
      next.remaining + next.produced.length = out.remaining + out.produced.length := by
  obtain ⟨⟨offset, count, behind⟩, hread, h⟩ := bind_eq_ok.1 h
  obtain ⟨copied, hcopy, h⟩ := bind_eq_ok.1 h
  obtain ⟨rfl, -⟩ := Prod.mk.inj (Except.ok.inj h)
  have hcount := count_pos_of_readCopy hread
  obtain ⟨hless, htotal⟩ := Output.total_of_copyListed hcount hcopy
  exact ⟨by omega, htotal⟩

/-- The rounds of a stream up to the end of the output. -/
def expandListed (table : OffsetTable) (out : Output) (bits : List Bool) : Except Error Output :=
  if out.remaining = 0 then .ok out
  else
    match _hl : runLiterals out bits with
    | .error e => .error e
    | .ok (between, bits) =>
      if between.remaining = 0 then .ok between
      else
        match _hc : runCopyListed table between bits with
        | .error e => .error e
        | .ok (next, rest) => expandListed table next rest
termination_by out.remaining
decreasing_by
  have h1 := remaining_of_runLiterals _hl
  have h2 := (remaining_of_runCopyListed _hc).1
  omega

/-- Packed data with a decoder of its stream. -/
def unpackBy (decode : Nat → List Bool → Except Error Output) (packed : Bytes) :
    Except Error Bytes :=
  if packed.length % 4 ≠ 0 then .error (.malformed (.oddLength packed.length))
  else
    match longsBackward packed with
    | trailer :: first :: words =>
      let skip := trailer.toNat % 0x100
      if 32 ≤ skip then .error (.malformed (.skipCount skip))
      else (decode (trailer.toNat / 0x100) (streamBits skip first words)).map (·.produced)
    | _ => .error (.truncated 0 8 packed.length)

theorem unpack_eq (table : OffsetTable) : unpack table
    = unpackBy fun total bits => expand table total (.empty total) bits := rfl

/-- The output of packed data, by a decoder on lists: it prepends to its output, and it rejects a
    copy whose offset is not below the number of the bytes produced so far. -/
def unpackListed (table : OffsetTable) : Bytes → Except Error Bytes :=
  unpackBy fun total bits => expandListed table (.empty total) bits

theorem total_of_runLiterals {out next : Output} {bits rest : List Bool}
    (h : runLiterals out bits = .ok (next, rest)) :
    next.remaining + next.produced.length = out.remaining + out.produced.length := by
  obtain ⟨⟨isCopy, behind⟩, hread, h⟩ := bind_eq_ok.1 h
  dsimp only at h
  split at h
  · obtain ⟨⟨count, behind⟩, hcount, h⟩ := bind_eq_ok.1 h
    obtain ⟨bytes, hlength, hroom, -, rfl⟩ := Output.literalRun_eq_ok.1 h
    rw [List.length_append, List.length_reverse]
    show out.remaining - count + (bytes.length + out.produced.length) = _
    omega
  · cases h
    rfl

theorem runCopyListed_eq (table : OffsetTable) (out : Output) (bits : List Bool) :
    runCopyListed table out bits
      = runCopy table (out.remaining + out.produced.length) out bits := by
  unfold runCopyListed runCopy
  cases hread : readCopy table bits with
  | error e => rfl
  | ok result =>
      obtain ⟨offset, count, behind⟩ := result
      show (out.copyListed .powerPacker offset count >>= _)
        = (out.copy .powerPacker _ (offset + 1) count >>= _)
      rw [Output.copyListed_eq (count_pos_of_readCopy hread)]

/-- One round of a stream, and the others. -/
theorem expand_eq (table : OffsetTable) (total : Nat) (out : Output) (bits : List Bool) :
    expand table total out bits = if out.remaining = 0 then .ok out else (do
      let (between, bits) ← runLiterals out bits
      if between.remaining = 0 then .ok between else (do
        let (next, rest) ← runCopy table total between bits
        expand table total next rest)) := by
  rw [expand]
  cases runLiterals out bits with
  | error e => rfl
  | ok result =>
      refine ite_congr rfl (fun _ => rfl) fun _ => ite_congr rfl (fun _ => rfl) fun _ => ?_
      cases runCopy table total result.1 result.2 <;> rfl

theorem expandListed_eq_round (table : OffsetTable) (out : Output) (bits : List Bool) :
    expandListed table out bits = if out.remaining = 0 then .ok out else (do
      let (between, bits) ← runLiterals out bits
      if between.remaining = 0 then .ok between else (do
        let (next, rest) ← runCopyListed table between bits
        expandListed table next rest)) := by
  rw [expandListed]
  cases runLiterals out bits with
  | error e => rfl
  | ok result =>
      refine ite_congr rfl (fun _ => rfl) fun _ => ite_congr rfl (fun _ => rfl) fun _ => ?_
      cases runCopyListed table result.1 result.2 <;> rfl

/-- **The decoder on lists decodes a stream as the other one does.** -/
theorem expandListed_eq (table : OffsetTable) (out : Output) (bits : List Bool) :
    expandListed table out bits
      = expand table (out.remaining + out.produced.length) out bits := by
  fun_induction expandListed table out bits with
  | case1 out bits h0 => rw [expand_eq, if_pos h0]
  | case2 out bits h0 e hl =>
      rw [expand_eq, if_neg h0, hl]
      rfl
  | case3 out bits h0 between rest hl hb =>
      rw [expand_eq, if_neg h0, hl]
      exact (if_pos hb).symm
  | case4 out bits h0 between rest hl hb e hc =>
      rw [runCopyListed_eq, total_of_runLiterals hl] at hc
      rw [expand_eq, if_neg h0, hl]
      exact ((if_neg hb).trans (bind_eq_error.2 (.inl hc))).symm
  | case5 out bits h0 between rest hl hb next behind hc ih =>
      rw [ih, (remaining_of_runCopyListed hc).2, total_of_runLiterals hl]
      rw [runCopyListed_eq, total_of_runLiterals hl] at hc
      rw [expand_round h0 hl hb hc]

theorem unpackListed_eq (table : OffsetTable) : unpackListed table = unpack table := by
  rw [unpack_eq, unpackListed]
  refine congrArg unpackBy (funext fun total => funext fun bits => ?_)
  exact expandListed_eq table (.empty total) bits

end AmigaBinary.Decrunch.PowerPacker
