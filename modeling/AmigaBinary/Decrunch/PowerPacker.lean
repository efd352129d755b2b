import AmigaBinary.Decrunch.Output

/-!
# PowerPacker

The packed data is a sequence of 32-bit words, read from its end. The last word holds the length
of the output above the number of bits to skip at the start of the stream. The stream alternates
between an optional run of literals and a copy; the widths of the distances of copies come from a
table of four bytes in the unpacking code.
-/

namespace AmigaBinary.Decrunch.PowerPacker

/-! ## 1. Numbers in the stream -/

/-- The error of a stream that ends too early. The data is made of whole words, so nothing is
    left over then. -/
def exhausted : Error :=
  .inputExhausted .powerPacker 0

/-- The largest length; lengths do not grow beyond it. -/
def maxLength : Nat := 0xFFFFFFFF

/-- A length: groups of `width` bits are added to `length` up to the first group that is not all
    ones. -/
def readLength (width : Nat) (positive : 0 < width) (length : Nat) (bits : List Bool) :
    Except Error (Nat × List Bool) :=
  match _h : readBits exhausted width bits with
  | .error e => .error e
  | .ok (group, rest) =>
    let total := min maxLength (length + group)
    if group = 1 <<< width - 1 then readLength width positive total rest else .ok (total, rest)
termination_by bits.length
decreasing_by
  have := length_of_readBits _h
  omega

/-- A length is never less than the one it starts from, up to the largest one. -/
theorem le_of_readLength {width : Nat} {positive : 0 < width} {length total : Nat}
    {bits rest : List Bool} (h : readLength width positive length bits = .ok (total, rest)) :
    min maxLength length ≤ total := by
  fun_induction readLength width positive length bits with
  | case1 => simp at h
  | case2 =>
      rename_i ih
      have := ih h
      omega
  | case3 =>
      simp only [Except.ok.injEq, Prod.mk.injEq] at h
      omega

/-! ## 2. Tokens -/

/-- The widths of the distances of the four kinds of copies, in bits. -/
structure OffsetTable where
  first : UInt8
  second : UInt8
  third : UInt8
  fourth : UInt8
  deriving DecidableEq, Repr

/-- A distance of the given width. It has 32 bits at most; higher ones are lost. -/
def readDistance (width : Nat) (bits : List Bool) : Except Error (Nat × List Bool) := do
  let (value, bits) ← readBits exhausted width bits
  .ok (value % 0x100000000, bits)

/-- A copy of the fourth kind: a distance of 7 bits or of the width in the table, then a length of
    five or more. -/
def readLongCopy (table : OffsetTable) (bits : List Bool) : Except Error (Nat × Nat × List Bool) := do
  let (isWide, bits) ← readBits exhausted 1 bits
  let (distance, bits) ← readDistance (if isWide = 0 then 7 else table.fourth.toNat) bits
  let (count, bits) ← readLength 3 (by decide) 5 bits
  .ok (distance, count, bits)

/-- The distance and the length of the copy at the front of a stream. -/
def readCopy (table : OffsetTable) (bits : List Bool) : Except Error (Nat × Nat × List Bool) := do
  let (kind, bits) ← readBits exhausted 2 bits
  match kind with
  | 0 => do
      let (distance, bits) ← readDistance table.first.toNat bits
      .ok (distance, 2, bits)
  | 1 => do
      let (distance, bits) ← readDistance table.second.toNat bits
      .ok (distance, 3, bits)
  | 2 => do
      let (distance, bits) ← readDistance table.third.toNat bits
      .ok (distance, 4, bits)
  | _ => readLongCopy table bits

/-- The optional run of literals at the front of a stream. -/
def runLiterals (out : Output) (bits : List Bool) : Except Error (Output × List Bool) := do
  let (isCopy, bits) ← readBits exhausted 1 bits
  if isCopy = 0 then
    let (count, bits) ← readLength 2 (by decide) 1 bits
    out.literalRun .powerPacker exhausted count bits
  else .ok (out, bits)

/-- The copy at the front of a stream. A distance of 0 names the byte that was written last. -/
def runCopy (table : OffsetTable) (total : Nat) (out : Output) (bits : List Bool) :
    Except Error (Output × List Bool) := do
  let (distance, count, bits) ← readCopy table bits
  let out ← out.copy .powerPacker total (distance + 1) count
  .ok (out, bits)

/-! ## 3. Every round writes something -/

theorem remaining_of_runLiterals {out next : Output} {bits rest : List Bool}
    (h : runLiterals out bits = .ok (next, rest)) : next.remaining ≤ out.remaining := by
  simp only [runLiterals, bind, Except.bind] at h
  split at h
  · simp at h
  · split at h
    · split at h
      · simp at h
      · have := Output.remaining_of_literalRun h
        omega
    · simp only [Except.ok.injEq, Prod.mk.injEq] at h
      obtain ⟨rfl, -⟩ := h
      exact Nat.le_refl _

theorem count_pos_of_readCopy {table : OffsetTable} {bits rest : List Bool} {distance count : Nat}
    (h : readCopy table bits = .ok (distance, count, rest)) : 0 < count := by
  simp only [readCopy, readLongCopy, bind, Except.bind] at h
  repeat' split at h
  all_goals first
    | (simp at h; done)
    | (simp only [Except.ok.injEq, Prod.mk.injEq] at h; omega)
    | (rename_i hl
       have := le_of_readLength hl
       simp only [Except.ok.injEq, Prod.mk.injEq] at h
       simp only [maxLength] at this
       omega)

theorem remaining_of_runCopy {table : OffsetTable} {total : Nat} {out next : Output}
    {bits rest : List Bool} (h : runCopy table total out bits = .ok (next, rest)) :
    next.remaining < out.remaining := by
  simp only [runCopy, bind, Except.bind] at h
  split at h
  · simp at h
  · rename_i c hc
    have h1 := count_pos_of_readCopy hc
    split at h
    · simp at h
    · rename_i o ho
      have h2 := Output.remaining_of_copy ho
      simp only [Except.ok.injEq, Prod.mk.injEq] at h
      obtain ⟨rfl, -⟩ := h
      omega

/-! ## 4. Data -/

/-- The rounds of a stream up to the end of the output. The copy after a run of literals that
    completes the output is left out. -/
def expand (table : OffsetTable) (total : Nat) (out : Output) (bits : List Bool) :
    Except Error Output :=
  if out.remaining = 0 then .ok out
  else
    match _hl : runLiterals out bits with
    | .error e => .error e
    | .ok (between, bits) =>
      if between.remaining = 0 then .ok between
      else
        match _hc : runCopy table total between bits with
        | .error e => .error e
        | .ok (next, rest) => expand table total next rest
termination_by out.remaining
decreasing_by
  have h1 := remaining_of_runLiterals _hl
  have h2 := remaining_of_runCopy _hc
  omega

/-- The bits of a stream, of which the lowest `skip` bits of the first word are not part. -/
def streamBits (skip : Nat) (first : UInt32) (words : List UInt32) : List Bool :=
  (lowestFirst 32 first.toNat).drop skip ++ words.flatMap fun word => lowestFirst 32 word.toNat

/-- The output of packed data. -/
def unpack (table : OffsetTable) (packed : Bytes) : Except Error Bytes :=
  if packed.length % 4 ≠ 0 then .error (.malformed (.oddLength packed.length))
  else
    match longsBackward packed with
    | trailer :: first :: words =>
      let skip := trailer.toNat % 0x100
      if 32 ≤ skip then .error (.malformed (.skipCount skip))
      else
        let total := trailer.toNat / 0x100
        (expand table total (.empty total) (streamBits skip first words)).map (·.produced)
    | _ => .error (.truncated 0 8 packed.length)

end AmigaBinary.Decrunch.PowerPacker
