import AmigaBinary.Proofs.Decrunch.PowerPacker.Listed
import AmigaBinary.Proofs.Decrunch.PowerPacker.Reader

/-!
# The machine that unpacks PowerPacker data

The machine keeps its output in memory, which it fills downwards. All its steps are checked. Where a
run of literals is checked for its length only, and a copy for the first of its cells only, the
other steps are in bounds as well, so the machine refines the decoder on lists
(`Machine.unpack_refines`). What stood in the memory at first does not count.
-/

namespace AmigaBinary.Decrunch.PowerPacker

open Checked

/-! ## 1. The machine -/

namespace Machine

/-- So many literal bytes. -/
def literals (data : Bytes) : Nat → Memory → Reader → Checked (Memory × Reader)
  | 0, m, r => pure (m, r)
  | count + 1, m, r => do
    let _ ← m.below
    let (value, r) ← r.bits data 8
    let m ← m.put (.literal value.toUInt8)
    literals data count m r

/-- The optional run of literals. Only its length is checked. -/
def runLiterals (data : Bytes) (m : Memory) (r : Reader) : Checked (Memory × Reader) := do
  let (bit, r) ← r.bit data
  if bit = 0 then
    let (count, r) ← r.length data 2 1
    if m.buffer.position < count.toNat then
      throw (.outputOverrun .powerPacker count.toNat m.buffer.position)
    else literals data count.toNat m r
  else pure (m, r)

/-- The width of the distances of copies of a kind. -/
def width (table : OffsetTable) (kind : Nat) : Checked Nat :=
  match [table.first, table.second, table.third, table.fourth][kind]? with
  | some width => pure width.toNat
  | none => fault

/-- The width of the distance of a copy of the fourth kind. -/
def longWidth (table : OffsetTable) (bit : UInt32) : Checked Nat :=
  if bit = 0 then pure 7 else width table 3

/-- The offset and the length of a copy of the fourth kind. -/
def readLongCopy (table : OffsetTable) (data : Bytes) (r : Reader) :
    Checked (UInt32 × UInt32 × Reader) := do
  let (bit, r) ← r.bit data
  let width ← longWidth table bit
  let (offset, r) ← r.bits data width
  let (count, r) ← r.length data 3 5
  pure (offset, count, r)

/-- The offset and the length of a copy. -/
def readCopy (table : OffsetTable) (data : Bytes) (r : Reader) :
    Checked (UInt32 × UInt32 × Reader) := do
  let (kind, r) ← r.bits data 2
  if kind = 3 then readLongCopy table data r
  else
    let width ← width table kind.toNat
    let (offset, r) ← r.bits data width
    pure (offset, kind + 2, r)

/-- So many bytes from a distance ahead. -/
def copyAll (distance : Nat) : Nat → Memory → Checked Memory
  | 0, m => pure m
  | count + 1, m => do
    let m ← m.put (.ahead distance)
    copyAll distance count m

/-- A copy. Of the cells that it reads only the first one is checked. -/
def copy (offset count : Nat) (m : Memory) : Checked Memory :=
  let position := m.buffer.position
  let size := m.buffer.cells.length
  if position < count then throw (.outputOverrun .powerPacker count position)
  else if size ≤ position + offset then
    throw (.copyOutOfRange .powerPacker (position + offset) size)
  else copyAll (offset + 1) count m

/-- A copy from the front of the stream. -/
def runCopy (table : OffsetTable) (data : Bytes) (m : Memory) (r : Reader) :
    Checked (Memory × Reader) := do
  let (offset, count, r) ← readCopy table data r
  let m ← copy offset.toNat count.toNat m
  pure (m, r)

/-- The rounds up to the end of the memory. There are `limit` rounds at most. -/
def run (table : OffsetTable) (data : Bytes) : Nat → Memory → Reader → Checked Memory
  | 0, _, _ => fault
  | limit + 1, m, r => do
    if m.buffer.position = 0 then pure m
    else
      let (m, r) ← runLiterals data m r
      if m.buffer.position = 0 then pure m
      else
        let (m, r) ← runCopy table data m r
        run table data limit m r

/-- The reader at the start of the stream. Its first longword has lost the bits to skip. -/
def startReader (packed : Bytes) (skip : Nat) : Checked Reader := do
  let position ← subtract packed.length 8
  let first ← ofExcept (Bytes.readWord32 packed position)
  let register ← shiftRight first skip
  let count ← subtract 32 skip
  pure ⟨position, register, count⟩

/-- The memory that packed data leaves, in which `initial` stood at first. There are no more rounds
    than bytes to unpack. -/
def unpack (initial : Nat → UInt8) (table : OffsetTable) (packed : Bytes) : Checked Memory :=
  if packed.length % 4 ≠ 0 then throw (.malformed (.oddLength packed.length))
  else if packed.length < 8 then throw (.truncated 0 8 packed.length)
  else do
    let last ← subtract packed.length 4
    let trailer ← ofExcept (Bytes.readWord32 packed last)
    let skip := (trailer &&& 0xFF).toNat
    if 32 ≤ skip then throw (.malformed (.skipCount skip))
    else
      let r ← startReader packed skip
      let size := (trailer >>> 8).toNat
      run table packed (size + 1) (.start initial size) r

/-! ## 2. Literals -/

variable {data : Bytes} {size : Nat} {m : Memory} {out : Output} {r : Reader} {stream : List Bool}
  {table : OffsetTable}

/-- Memory that tracks an output, and a reader that holds what is still to be read. -/
def Runs (data : Bytes) (size : Nat) (p : Memory × Reader) (q : Output × List Bool) : Prop :=
  p.1.Tracks size q.1 ∧ p.2.Holds data q.2

/-- A run whose length was checked has a cell for each of its bytes. -/
theorem literals_refines (hm : m.Tracks size out) (hr : r.Holds data stream) {count : Nat}
    (hroom : count ≤ out.remaining) : Refines (Runs data size) (literals data count m r)
      (out.literals .powerPacker exhausted count stream) := by
  induction count generalizing m out r stream with
  | zero => exact .ok ⟨hm, hr⟩
  | succ count ih =>
      rw [literals, Output.literals, hm.below (by omega), pure_bind]
      refine (hr.bits_of_le (by decide)).bind fun p q hp => ?_
      obtain ⟨⟨hvalue, -⟩, hrest⟩ := hp
      have hbyte : p.1.toUInt8 = UInt8.ofNat q.1 := by
        rw [← hvalue]
        apply UInt8.toNat_inj.1
        rw [UInt32.toNat_toUInt8, UInt8.toNat_ofNat']
      have hliteral : out.literal .powerPacker q.1 = .ok (out.push p.1.toUInt8) :=
        Output.literal_eq_ok.2 ⟨by omega, by rw [hbyte]⟩
      dsimp only
      rw [hliteral]
      refine (hm.put_literal (by omega) _).and_ok.bind fun m' out' hput => ?_
      obtain ⟨hm', hout⟩ := hput
      cases hout
      exact ih hm' hrest (by show count ≤ out.remaining - 1; omega)

theorem eq_zero_iff {word : UInt32} {n : Nat} (h : word.toNat = n) : word = 0 ↔ n = 0 := by
  rw [← h, ← UInt32.toNat_inj]
  rfl

theorem runLiterals_refines (hm : m.Tracks size out) (hr : r.Holds data stream) :
    Refines (Runs data size) (runLiterals data m r) (PowerPacker.runLiterals out stream) := by
  refine hr.bit_value.bind fun p q hp => ?_
  obtain ⟨hbit, hr'⟩ := hp
  dsimp only
  by_cases h0 : q.1 = 0
  · rw [if_pos h0, if_pos ((eq_zero_iff hbit).2 h0)]
    refine (hr'.length (by decide) (by decide)).bind fun p' q' hp' => ?_
    obtain ⟨hcount, hr''⟩ := hp'
    have hposition := hm.shows.position
    unfold Output.literalRun Output.require
    rw [hcount, hposition]
    by_cases hroom : q'.1 ≤ out.remaining
    · rw [if_neg (Nat.not_lt.2 hroom), if_pos hroom]
      exact literals_refines hm hr'' hroom
    · rw [if_pos (Nat.not_le.1 hroom), if_neg hroom]
      exact .error _
  · rw [if_neg h0, if_neg fun h => h0 ((eq_zero_iff hbit).1 h)]
    exact .ok ⟨hm, hr'⟩

/-! ## 3. Copies -/

theorem longWidth_eq {bit : UInt32} {n : Nat} (h : bit.toNat = n) :
    longWidth table bit = pure (if n = 0 then 7 else table.fourth.toNat) := by
  unfold longWidth
  by_cases h0 : n = 0
  · rw [if_pos h0, if_pos ((eq_zero_iff h).2 h0)]
  · rw [if_neg h0, if_neg fun hb => h0 ((eq_zero_iff h).1 hb)]
    rfl

/-- What a reader finds of a copy. -/
def ReadsCopy (data : Bytes) (p : UInt32 × UInt32 × Reader) (q : Nat × Nat × List Bool) : Prop :=
  p.1.toNat = q.1 ∧ p.2.1.toNat = q.2.1 ∧ p.2.2.Holds data q.2.2

theorem readLongCopy_refines (hr : r.Holds data stream) : Refines (ReadsCopy data)
    (readLongCopy table data r) (PowerPacker.readLongCopy table stream) := by
  refine hr.bit_value.bind fun p q hp => ?_
  dsimp only
  rw [longWidth_eq hp.1, pure_bind]
  refine (hp.2.distance _).bind fun p' q' hp' => ?_
  refine (hp'.2.length (by decide) (by decide)).bind fun p'' q'' hp'' => ?_
  exact .ok ⟨hp'.1, hp''.1, hp''.2⟩

theorem readShortCopy_refines (hr : r.Holds data stream) (width : Nat) {count : UInt32} {n : Nat}
    (hcount : count.toNat = n) : Refines (ReadsCopy data)
    (do
      let (offset, r) ← r.bits data width
      pure (offset, count, r))
    (do
      let (distance, bits) ← readDistance width stream
      .ok (distance, n, bits)) :=
  (hr.distance width).bind fun _ _ hp => .ok ⟨hp.1, hcount, hp.2⟩

/-- **The table is read inside of its bounds**, and a copy as from the stream. -/
theorem readCopy_refines (hr : r.Holds data stream) :
    Refines (ReadsCopy data) (readCopy table data r) (PowerPacker.readCopy table stream) := by
  refine (hr.bits_of_le (by decide)).bind fun p q hp => ?_
  obtain ⟨kind, r'⟩ := p
  obtain ⟨value, rest⟩ := q
  obtain ⟨⟨hkind, hlt⟩, hr'⟩ := hp
  simp only at hkind hlt hr'
  obtain rfl : kind = UInt32.ofNat value := by rw [← hkind, UInt32.ofNat_toNat]
  match value, hlt with
  | 0, _ => exact readShortCopy_refines hr' table.first.toNat rfl
  | 1, _ => exact readShortCopy_refines hr' table.second.toNat rfl
  | 2, _ => exact readShortCopy_refines hr' table.third.toNat rfl
  | 3, _ => exact readLongCopy_refines hr'

/-- Copied bytes that were produced are read from cells that were written. -/
theorem copyAll_refines (hm : m.Tracks size out) {offset count : Nat}
    (hroom : count ≤ out.remaining) (hoffset : offset < out.produced.length) :
    Refines (Memory.Tracks size) (copyAll (offset + 1) count m)
      (out.prepend .powerPacker offset count) := by
  induction count generalizing m out with
  | zero => exact .ok hm
  | succ count ih =>
      have hvalue := List.getElem?_eq_getElem hoffset
      rw [copyAll, Output.prepend, hvalue]
      refine (hm.put_ahead (by omega) hvalue).and_ok.bind (y := .ok (out.push _))
        fun m' out' hput => ?_
      obtain ⟨hm', hout⟩ := hput
      cases hout
      exact ih hm' (by show count ≤ out.remaining - 1; omega) (Nat.lt_succ_of_lt hoffset)

theorem copy_refines (hm : m.Tracks size out) {offset count : Nat} (hc : 0 < count) :
    Refines (Memory.Tracks size) (copy offset count m)
      (out.copyListed .powerPacker offset count) := by
  have htotal := hm.shows.total
  unfold copy Output.copyListed Output.require
  rw [hm.full, hm.shows.position]
  by_cases hroom : count ≤ out.remaining
  · rw [if_neg (Nat.not_lt.2 hroom), if_pos hroom]
    by_cases hoffset : offset < out.produced.length
    · rw [if_neg (by omega)]
      exact copyAll_refines hm hroom hoffset
    · obtain ⟨count, rfl⟩ := Nat.exists_eq_succ_of_ne_zero (Nat.ne_of_gt hc)
      dsimp only
      rw [if_pos (by omega), Output.prepend, List.getElem?_eq_none (Nat.not_lt.1 hoffset), htotal]
      exact .error _
  · rw [if_pos (Nat.not_le.1 hroom), if_neg hroom]
    exact .error _

theorem runCopy_refines (hm : m.Tracks size out) (hr : r.Holds data stream) :
    Refines (Runs data size) (runCopy table data m r) (runCopyListed table out stream) := by
  refine (readCopy_refines hr).and_ok.bind fun p q hp => ?_
  obtain ⟨⟨hoffset, hcount, hr'⟩, hread⟩ := hp
  dsimp only
  rw [hoffset, hcount]
  refine (copy_refines hm (count_pos_of_readCopy hread)).bind fun m' out' hm' => ?_
  exact .ok ⟨hm', hr'⟩

/-! ## 4. Packed data -/

/-- **The machine decodes a stream as the decoder on lists does.** -/
theorem run_refines (hm : m.Tracks size out) (hr : r.Holds data stream) {limit : Nat}
    (hlimit : out.remaining < limit) :
    Refines (fun m out => m.Filled size out.produced) (run table data limit m r)
      (expandListed table out stream) := by
  induction limit generalizing m out r stream with
  | zero => omega
  | succ limit ih =>
      rw [run, expandListed_eq_round, hm.shows.position]
      by_cases h0 : out.remaining = 0
      · rw [if_pos h0, if_pos h0]
        exact .ok (hm.filled h0)
      · rw [if_neg h0, if_neg h0]
        refine (runLiterals_refines hm hr).and_ok.bind fun p q hp => ?_
        obtain ⟨⟨hm', hr'⟩, hrun⟩ := hp
        have hless := remaining_of_runLiterals hrun
        dsimp only
        rw [hm'.shows.position]
        by_cases h1 : q.1.remaining = 0
        · rw [if_pos h1, if_pos h1]
          exact .ok (hm'.filled h1)
        · rw [if_neg h1, if_neg h1]
          refine (runCopy_refines hm' hr').and_ok.bind fun p' q' hp' => ?_
          obtain ⟨⟨hm'', hr''⟩, hcopy⟩ := hp'
          -- each round leaves fewer bytes to produce
          have hless' := (remaining_of_runCopyListed hcopy).1
          exact ih hm'' hr'' (by omega)

/-- The size of an output and the bits to skip are the parts of the trailer. -/
theorem toNat_and_byte (word : UInt32) : (word &&& 0xFF).toNat = word.toNat % 0x100 := by
  rw [UInt32.toNat_and]
  exact Nat.and_two_pow_sub_one_eq_mod word.toNat 8

/-- Data of at least two longwords has a trailer and the start of a stream. -/
theorem longsBackward_eq {packed : Bytes} (h8 : 8 ≤ packed.length) : ∃ trailer first,
    Bytes.readWord32 packed (packed.length - 4) = .ok trailer ∧
      Bytes.readWord32 packed (packed.length - 8) = .ok first ∧
      longsBackward packed
        = trailer :: first :: longsBackward (packed.take (packed.length - 8)) := by
  obtain ⟨trailer, htrailer, hlast⟩ := longsBackward_take (by omega) (Nat.le_refl packed.length)
  obtain ⟨first, hfirst, hrest⟩ := longsBackward_take (by omega : 4 ≤ packed.length - 4)
    (Nat.sub_le packed.length 4)
  rw [List.take_length, hrest] at hlast
  exact ⟨trailer, first, htrailer, hfirst, hlast⟩

/-- Data with a trailer and the start of a stream has two longwords. -/
theorem le_length_of_longsBackward {packed : Bytes} (h4 : packed.length % 4 = 0)
    {trailer first : UInt32} {words : List UInt32}
    (h : longsBackward packed = trailer :: first :: words) : 8 ≤ packed.length := by
  rw [← writeBackward_longsBackward h4, length_writeBackward, h, List.length_cons,
    List.length_cons]
  omega

theorem startReader_eq {packed : Bytes} {skip : Nat} {first : UInt32} (h8 : 8 ≤ packed.length)
    (hskip : skip < 32) (hfirst : Bytes.readWord32 packed (packed.length - 8) = .ok first) :
    startReader packed skip
      = pure ⟨packed.length - 8, first >>> UInt32.ofNat skip, 32 - skip⟩ := by
  rw [startReader, subtract_of_le h8, pure_bind, hfirst]
  show (shiftRight first skip >>= _) = _
  rw [shiftRight_of_lt hskip, pure_bind, subtract_of_le (Nat.le_of_lt hskip), pure_bind]

/-- A reader at the start of a stream holds all of it. -/
theorem holds_start {packed : Bytes} (h4 : packed.length % 4 = 0) {skip : Nat} (hskip : skip < 32)
    (first : UInt32) : Reader.Holds packed
      ⟨packed.length - 8, first >>> UInt32.ofNat skip, 32 - skip⟩
      (streamBits skip first (longsBackward (packed.take (packed.length - 8)))) where
  whole := by
    show (packed.length - 8) % 4 = 0
    omega
  inside := Nat.sub_le packed.length 8
  stream := Window.stream_start hskip first _

/-- **The machine unpacks what the decoder on lists unpacks**, whatever its memory held at first.
    An output has the size in the trailer. -/
theorem unpack_refines (initial : Nat → UInt8) (table : OffsetTable) (packed : Bytes) :
    Refines (fun m out => ∃ trailer, Bytes.readWord32 packed (packed.length - 4) = .ok trailer ∧
      m.Filled (trailer.toNat / 0x100) out)
    (unpack initial table packed) (unpackListed table packed) := by
  unfold unpack unpackListed unpackBy
  by_cases h4 : packed.length % 4 ≠ 0
  · rw [if_pos h4, if_pos h4]
    exact .error _
  rw [if_neg h4, if_neg h4]
  by_cases h8 : packed.length < 8
  · rw [if_pos h8]
    match hlongs : longsBackward packed with
    | [] => exact .error _
    | [_] => exact .error _
    | _ :: _ :: _ =>
        have := le_length_of_longsBackward (not_not.1 h4) hlongs
        omega
  obtain ⟨trailer, first, htrailer, hfirst, hlongs⟩ := longsBackward_eq (Nat.not_lt.1 h8)
  rw [if_neg h8, subtract_of_le (by omega), pure_bind, htrailer, hlongs]
  show Refines _ (if 32 ≤ (trailer &&& 0xFF).toNat then _ else _) _
  dsimp only
  rw [toNat_and_byte]
  generalize hskip : trailer.toNat % 0x100 = skip
  by_cases h32 : 32 ≤ skip
  · rw [if_pos h32, if_pos h32]
    exact .error _
  have hstart := holds_start (not_not.1 h4) (Nat.not_le.1 h32) first
  have hsize : (trailer >>> 8).toNat = trailer.toNat / 0x100 :=
    toNat_shiftRight (by decide : 8 < 32) trailer
  rw [if_neg h32, if_neg h32, startReader_eq (Nat.not_lt.1 h8) (Nat.not_le.1 h32) hfirst, pure_bind,
    hsize]
  exact (run_refines (.start initial _) hstart (Nat.lt_succ_self _)).map fun m out hm =>
    ⟨trailer, rfl, hm⟩

end Machine

end AmigaBinary.Decrunch.PowerPacker
