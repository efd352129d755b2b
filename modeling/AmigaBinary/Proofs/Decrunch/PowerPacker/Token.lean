import AmigaBinary.Decrunch.PowerPacker
import AmigaBinary.Proofs.Decrunch.Output
import AmigaBinary.Total

/-!
# The tokens of a PowerPacker stream

A stream is a list of rounds, each of which is a run of literal bytes, which may be empty, and a
copy, and a last run. Every part has a written form (`Stream.bits`) and an effect on the bytes
produced so far (`Stream.apply`). The decoder finds each part where it is written: a length
(`readLength_bits`), a copy (`runCopy_bits`), a run (`runLiterals_bits`), and so the whole stream
(`expand_bits`).
-/

namespace AmigaBinary.Decrunch.PowerPacker

/-! ## 1. Copies -/

/-- The shapes of copies. Two, three and four bytes have a shape of their own. The distance of a
    longer copy is wide or has seven bits. -/
inductive CopyShape where
  | two
  | three
  | four
  | many (isWide : Bool) (count : Nat)
  deriving DecidableEq, Repr

namespace CopyShape

/-- The number of bytes that are copied. -/
def count : CopyShape → Nat
  | .two => 2
  | .three => 3
  | .four => 4
  | .many _ count => count

/-- The bits of the distance. -/
def width (table : OffsetTable) : CopyShape → Nat
  | .two => table.first.toNat
  | .three => table.second.toNat
  | .four => table.third.toNat
  | .many isWide _ => if isWide then table.fourth.toNat else 7

/-- What stands in front of the distance. -/
def mark : CopyShape → List Bool
  | .two => [false, false]
  | .three => [false, true]
  | .four => [true, false]
  | .many isWide _ => [true, true, isWide]

/-- What stands behind the distance: the length of a longer copy, which is five or more. -/
def lengthBits : CopyShape → List Bool
  | .two | .three | .four => []
  | .many _ count => groupBits 3 (count - 5)

/-- A longer copy is really longer. -/
def Valid : CopyShape → Prop
  | .two | .three | .four => True
  | .many _ count => 5 ≤ count

instance (shape : CopyShape) : Decidable shape.Valid := by
  cases shape <;> unfold Valid <;> infer_instance

theorem Valid.count_pos {shape : CopyShape} (h : shape.Valid) : 0 < shape.count := by
  cases shape with
  | two => exact Nat.succ_pos 1
  | three => exact Nat.succ_pos 2
  | four => exact Nat.succ_pos 3
  | many isWide count => exact Nat.lt_of_lt_of_le (Nat.succ_pos 4) h

end CopyShape

/-- A copy. A distance of 0 names the byte that was written last. -/
structure Copy where
  shape : CopyShape
  distance : Nat
  deriving DecidableEq, Repr

namespace Copy

/-- The written form of a copy. -/
def bits (table : OffsetTable) (c : Copy) : List Bool :=
  c.shape.mark ++ (highestFirst (c.shape.width table) c.distance ++ c.shape.lengthBits)

/-- What the parts of a copy fit in. -/
structure Valid (table : OffsetTable) (c : Copy) : Prop where
  shape : c.shape.Valid
  fits : c.distance < 2 ^ c.shape.width table
  fits32 : c.distance < 2 ^ 32

instance (table : OffsetTable) (c : Copy) : Decidable (c.Valid table) :=
  decidable_of_iff
    (c.shape.Valid ∧ c.distance < 2 ^ c.shape.width table ∧ c.distance < 2 ^ 32)
    ⟨fun ⟨hs, hf, h32⟩ => ⟨hs, hf, h32⟩, fun ⟨hs, hf, h32⟩ => ⟨hs, hf, h32⟩⟩

/-- The effect of a copy on the bytes produced so far. -/
def apply (c : Copy) (out : Bytes) : Bytes :=
  copyAhead (c.distance + 1) c.shape.count out

end Copy

/-! ## 2. Streams -/

/-- The written form of a run of literal bytes: a bit tells that there is none. -/
def runBits : Bytes → List Bool
  | [] => [true]
  | byte :: bytes => false :: (groupBits 2 bytes.length ++ byteBits (byte :: bytes))

/-- A run of literal bytes, from the end of the output to its start, and a copy. -/
structure Round where
  literals : Bytes
  copy : Copy
  deriving DecidableEq, Repr

namespace Round

/-- The number of bytes that a round writes. -/
def length (r : Round) : Nat :=
  r.literals.length + r.copy.shape.count

/-- The written form of a round. -/
def bits (table : OffsetTable) (r : Round) : List Bool :=
  runBits r.literals ++ r.copy.bits table

/-- The effect of a round on the bytes produced so far. -/
def apply (r : Round) (out : Bytes) : Bytes :=
  r.copy.apply (r.literals.reverse ++ out)

theorem length_apply (r : Round) (out : Bytes) : (r.apply out).length = r.length + out.length := by
  unfold apply Copy.apply length
  rw [length_copyAhead, List.length_append, List.length_reverse]
  omega

end Round

/-- Rounds, and the run of literal bytes behind the last copy. -/
structure Stream where
  rounds : List Round
  last : Bytes
  deriving DecidableEq, Repr

/-- The distance of each copy is less than the number of bytes produced before it, of which
    `produced` are there before the rounds. -/
def CopiesProduced (produced : Nat) : List Round → Prop
  | [] => True
  | r :: rest =>
    r.copy.distance < produced + r.literals.length ∧ CopiesProduced (produced + r.length) rest

instance decidableCopiesProduced (produced : Nat) : (rounds : List Round) →
    Decidable (CopiesProduced produced rounds)
  | [] => isTrue trivial
  | r :: rest =>
    @instDecidableAnd _ _ _ (decidableCopiesProduced (produced + r.length) rest)

namespace Stream

/-- The number of bytes that a stream writes. -/
def length (s : Stream) : Nat :=
  total Round.length s.rounds + s.last.length

/-- The written form of a stream. An empty last run is not written. -/
def bits (table : OffsetTable) (s : Stream) : List Bool :=
  s.rounds.flatMap (Round.bits table) ++ if s.last = [] then [] else runBits s.last

/-- The effect of a stream on the bytes produced so far. -/
def apply (s : Stream) (out : Bytes) : Bytes :=
  s.last.reverse ++ s.rounds.foldl (fun out r => r.apply out) out

/-- The bytes that a stream stands for. -/
def denote (s : Stream) : Bytes :=
  s.apply []

theorem bits_cons (table : OffsetTable) (r : Round) (rounds : List Round) (last : Bytes) :
    bits table ⟨r :: rounds, last⟩ = r.bits table ++ bits table ⟨rounds, last⟩ := by
  unfold bits
  rw [List.flatMap_cons, List.append_assoc]

theorem length_cons (r : Round) (rounds : List Round) (last : Bytes) :
    length ⟨r :: rounds, last⟩ = r.length + length ⟨rounds, last⟩ := by
  unfold length
  rw [total_cons, Nat.add_assoc]

theorem length_apply (s : Stream) (out : Bytes) : (s.apply out).length = s.length + out.length := by
  obtain ⟨rounds, last⟩ := s
  simp only [apply, length, List.length_append, List.length_reverse]
  induction rounds generalizing out with
  | nil =>
      rw [List.foldl_nil, total_nil]
      omega
  | cons r rounds ih =>
      have h := ih (r.apply out)
      rw [Round.length_apply] at h
      rw [List.foldl_cons, total_cons]
      omega

end Stream

/-! ## 3. How long a stream gets -/

theorem length_runBits (bytes : Bytes) : (runBits bytes).length ≤ 12 * bytes.length + 1 := by
  cases bytes with
  | nil => exact Nat.le_refl 1
  | cons byte bytes =>
      rw [runBits, List.length_cons, List.length_append, length_groupBits, length_byteBits,
        List.length_cons]
      omega

theorem Copy.length_bits (table : OffsetTable) (c : Copy) :
    (c.bits table).length ≤ 262 + c.shape.count := by
  have h1 := table.first.toNat_lt
  have h2 := table.second.toNat_lt
  have h3 := table.third.toNat_lt
  have h4 := table.fourth.toNat_lt
  obtain ⟨shape, distance⟩ := c
  rw [Copy.bits, List.length_append, List.length_append, length_highestFirst]
  cases shape with
  | two | three | four =>
      simp only [CopyShape.mark, CopyShape.width, CopyShape.lengthBits, List.length_cons,
        List.length_nil]
      omega
  | many isWide count =>
      have hwidth : CopyShape.width table (.many isWide count) < 256 := by
        cases isWide
        · exact (by decide : 7 < 256)
        · exact h4
      simp only [CopyShape.mark, CopyShape.lengthBits, CopyShape.count, List.length_cons,
        List.length_nil, length_groupBits]
      omega

/-- **A stream has less than three hundred bits for each byte that it writes.** -/
theorem Stream.length_bits_le {table : OffsetTable} (s : Stream)
    (hv : ∀ r ∈ s.rounds, r.copy.Valid table) : (s.bits table).length ≤ 300 * s.length := by
  obtain ⟨rounds, last⟩ := s
  dsimp only at hv
  induction rounds with
  | nil =>
      rw [Stream.bits, Stream.length, List.flatMap_nil, total_nil, List.nil_append]
      dsimp only
      split
      · exact Nat.zero_le _
      · rename_i hlast
        have hpos := List.length_pos_iff.2 hlast
        have hrun := length_runBits last
        omega
  | cons r rounds ih =>
      have hrest := ih fun r' h => hv r' (List.mem_cons_of_mem r h)
      have hpos := (hv r List.mem_cons_self).shape.count_pos
      have hrun := length_runBits r.literals
      have hcopy := r.copy.length_bits table
      have hround : r.length = r.literals.length + r.copy.shape.count := rfl
      rw [Stream.bits_cons, Stream.length_cons, List.length_append, Round.bits,
        List.length_append]
      omega

/-! ## 4. Lengths and distances -/

/-- **A length is read from its groups.** -/
theorem readLength_bits {width : Nat} (positive : 0 < width) {length n : Nat}
    (hmax : length + n ≤ maxLength) (rest : List Bool) :
    readLength width positive length (groupBits width n ++ rest) = .ok (length + n, rest) := by
  have hpow : 1 < 2 ^ width := Nat.one_lt_two_pow (Nat.pos_iff_ne_zero.1 positive)
  have hshift : 1 <<< width - 1 = 2 ^ width - 1 := by rw [Nat.shiftLeft_eq, Nat.one_mul]
  induction n using Nat.strongRecOn generalizing length with
  | ind n ih =>
      by_cases hn : n < 2 ^ width - 1
      · have hr : readBits exhausted width (groupBits width n ++ rest) = .ok (n, rest) := by
          rw [groupBits_of_lt hn]
          exact readBits_eq_ok.2 ⟨by omega, rfl⟩
        rw [readLength, hr]
        dsimp only
        rw [if_neg (by omega), Nat.min_eq_right hmax]
      · -- a group of ones, and the rest of the number behind it
        obtain ⟨m, rfl⟩ := Nat.exists_eq_add_of_le' (Nat.le_of_not_lt hn)
        have hr : readBits exhausted width (groupBits width (m + (2 ^ width - 1)) ++ rest)
            = .ok (2 ^ width - 1, groupBits width m ++ rest) := by
          rw [groupBits_add positive, List.append_assoc]
          exact readBits_eq_ok.2 ⟨by omega, rfl⟩
        have hlast : readLength width positive (length + (2 ^ width - 1))
            (groupBits width m ++ rest) = .ok (length + (2 ^ width - 1) + m, rest) :=
          ih m (by omega) (by omega)
        rw [readLength, hr]
        dsimp only
        rw [if_pos hshift.symm, Nat.min_eq_right (by omega), hlast]
        congr 2
        omega

theorem readDistance_bits {width distance : Nat} (hw : distance < 2 ^ width)
    (h32 : distance < 2 ^ 32) (rest : List Bool) :
    readDistance width (highestFirst width distance ++ rest) = .ok (distance, rest) := by
  have hm : distance % 0x100000000 = distance := Nat.mod_eq_of_lt h32
  unfold readDistance
  refine bind_eq_ok.2 ⟨(distance, rest), readBits_eq_ok.2 ⟨hw, rfl⟩, ?_⟩
  dsimp only
  rw [hm]

/-! ## 5. Copies and runs -/

theorem readLongCopy_bits {table : OffsetTable} {isWide : Bool} {count distance : Nat}
    (hv : Copy.Valid table ⟨.many isWide count, distance⟩) (hmax : count ≤ maxLength)
    (rest : List Bool) :
    readLongCopy table
        (isWide :: (highestFirst (CopyShape.width table (.many isWide count)) distance
          ++ (groupBits 3 (count - 5) ++ rest)))
      = .ok (distance, count, rest) := by
  have h5 : 5 ≤ count := hv.shape
  have hcount : 5 + (count - 5) = count := by omega
  have hwidth : (if isWide.toNat = 0 then 7 else table.fourth.toNat)
      = CopyShape.width table (.many isWide count) := by
    cases isWide <;> rfl
  have hd := readDistance_bits hv.fits hv.fits32 (groupBits 3 (count - 5) ++ rest)
  have hl : readLength 3 (by decide) 5 (groupBits 3 (count - 5) ++ rest)
      = .ok (5 + (count - 5), rest) := readLength_bits (by decide) (by omega) rest
  rw [hcount] at hl
  unfold readLongCopy
  refine bind_eq_ok.2 ⟨(isWide.toNat, _), readBits_one isWide _, ?_⟩
  dsimp only
  rw [hwidth]
  exact bind_eq_ok.2 ⟨_, hd, bind_eq_ok.2 ⟨_, hl, rfl⟩⟩

/-- **A copy is read from its bits**: two bits for the shape, the distance, and the length of a
    longer copy. -/
theorem readCopy_bits {table : OffsetTable} {c : Copy} (hv : c.Valid table)
    (hmax : c.shape.count ≤ maxLength) (rest : List Bool) :
    readCopy table (c.bits table ++ rest) = .ok (c.distance, c.shape.count, rest) := by
  obtain ⟨shape, distance⟩ := c
  have hd := readDistance_bits hv.fits hv.fits32 rest
  unfold readCopy Copy.bits
  cases shape with
  | two =>
      rw [CopyShape.lengthBits, List.append_nil, List.append_assoc]
      exact bind_eq_ok.2 ⟨_, readBits_two false false _, bind_eq_ok.2 ⟨_, hd, rfl⟩⟩
  | three =>
      rw [CopyShape.lengthBits, List.append_nil, List.append_assoc]
      exact bind_eq_ok.2 ⟨_, readBits_two false true _, bind_eq_ok.2 ⟨_, hd, rfl⟩⟩
  | four =>
      rw [CopyShape.lengthBits, List.append_nil, List.append_assoc]
      exact bind_eq_ok.2 ⟨_, readBits_two true false _, bind_eq_ok.2 ⟨_, hd, rfl⟩⟩
  | many isWide count =>
      rw [CopyShape.lengthBits, List.append_assoc, List.append_assoc]
      exact bind_eq_ok.2 ⟨_, readBits_two true true _, readLongCopy_bits hv hmax rest⟩

/-- **A copy of produced bytes is carried out.** Its distance is less than their number. -/
theorem runCopy_bits {table : OffsetTable} {c : Copy} {capacity : Nat} {out : Output}
    (hv : c.Valid table) (hmax : capacity ≤ maxLength)
    (hcap : out.remaining + out.produced.length = capacity)
    (hfits : c.shape.count ≤ out.remaining) (hd : c.distance < out.produced.length)
    (rest : List Bool) :
    runCopy table capacity out (c.bits table ++ rest)
      = .ok (⟨out.remaining - c.shape.count, c.apply out.produced⟩, rest) := by
  have hpos := hv.shape.count_pos
  have hr := readCopy_bits hv (by omega) rest
  have hc : out.copy .powerPacker capacity (c.distance + 1) c.shape.count
      = .ok ⟨out.remaining - c.shape.count, c.apply out.produced⟩ :=
    Output.copy_eq_ok.2 ⟨hfits, by omega, rfl⟩
  unfold runCopy
  exact bind_eq_ok.2 ⟨_, hr, bind_eq_ok.2 ⟨_, hc, rfl⟩⟩

/-- **A run is carried out**, also one that is not there. -/
theorem runLiterals_bits {bytes : Bytes} {out : Output} (hfits : bytes.length ≤ out.remaining)
    (hmax : out.remaining ≤ maxLength) (rest : List Bool) :
    runLiterals out (runBits bytes ++ rest)
      = .ok (⟨out.remaining - bytes.length, bytes.reverse ++ out.produced⟩, rest) := by
  unfold runLiterals
  cases bytes with
  | nil => exact bind_eq_ok.2 ⟨_, readBits_one true rest, rfl⟩
  | cons byte bytes =>
      rw [List.length_cons] at hfits
      have hl : readLength 2 (by decide) 1
          (groupBits 2 bytes.length ++ (byteBits (byte :: bytes) ++ rest))
          = .ok (1 + bytes.length, byteBits (byte :: bytes) ++ rest) :=
        readLength_bits (by decide) (by omega) _
      have hcount : 1 + bytes.length = (byte :: bytes).length := by
        rw [List.length_cons, Nat.add_comm]
      have hrun : out.literalRun .powerPacker exhausted (byte :: bytes).length
          (byteBits (byte :: bytes) ++ rest)
          = .ok (⟨out.remaining - (byte :: bytes).length,
              (byte :: bytes).reverse ++ out.produced⟩, rest) :=
        Output.literalRun_eq_ok.2 ⟨byte :: bytes, rfl, hfits, rfl, rfl⟩
      rw [hcount] at hl
      rw [runBits, List.cons_append, List.append_assoc]
      exact bind_eq_ok.2 ⟨_, readBits_one false _, bind_eq_ok.2 ⟨_, hl, hrun⟩⟩

/-! ## 6. Streams -/

section Rounds

variable {table : OffsetTable} {capacity : Nat} {out between next : Output}
  {bits behind rest : List Bool}

theorem expand_full (h : out.remaining = 0) : expand table capacity out bits = .ok out := by
  rw [expand, if_pos h]

/-- A run that completes the output is the last part of the stream. -/
theorem expand_run (h : out.remaining ≠ 0) (hl : runLiterals out bits = .ok (between, behind))
    (hb : between.remaining = 0) : expand table capacity out bits = .ok between := by
  rw [expand, if_neg h]
  split
  · rename_i e he
    rw [hl] at he
    cases he
  · rename_i o b he
    rw [hl] at he
    cases he
    rw [if_pos hb]

/-- A round is a run and a copy. -/
theorem expand_round (h : out.remaining ≠ 0) (hl : runLiterals out bits = .ok (between, behind))
    (hb : between.remaining ≠ 0) (hc : runCopy table capacity between behind = .ok (next, rest)) :
    expand table capacity out bits = expand table capacity next rest := by
  rw [expand, if_neg h]
  split
  · rename_i e he
    rw [hl] at he
    cases he
  · rename_i o b he
    rw [hl] at he
    cases he
    rw [if_neg hb]
    split
    · rename_i e he
      rw [hc] at he
      cases he
    · rename_i o b he
      rw [hc] at he
      cases he
      rfl

end Rounds

/-- **A round that fits the output is carried out**, if its copy names a produced byte. -/
theorem expand_cons {table : OffsetTable} {capacity : Nat} {r : Round} {out : Output}
    (hv : r.copy.Valid table) (hmax : capacity ≤ maxLength)
    (hcap : out.remaining + out.produced.length = capacity) (hfits : r.length ≤ out.remaining)
    (hd : r.copy.distance < out.produced.length + r.literals.length) (rest : List Bool) :
    expand table capacity out (r.bits table ++ rest)
      = expand table capacity ⟨out.remaining - r.length, r.apply out.produced⟩ rest := by
  have hpos := hv.shape.count_pos
  have hlen : r.length = r.literals.length + r.copy.shape.count := rfl
  have hrun : runLiterals out (runBits r.literals ++ (r.copy.bits table ++ rest))
      = .ok (⟨out.remaining - r.literals.length, r.literals.reverse ++ out.produced⟩,
          r.copy.bits table ++ rest) := runLiterals_bits (by omega) (by omega) _
  have hproduced : (r.literals.reverse ++ out.produced).length
      = out.produced.length + r.literals.length := by
    rw [List.length_append, List.length_reverse, Nat.add_comm]
  have hcopy : runCopy table capacity
      ⟨out.remaining - r.literals.length, r.literals.reverse ++ out.produced⟩
      (r.copy.bits table ++ rest)
      = .ok (⟨out.remaining - r.literals.length - r.copy.shape.count, r.apply out.produced⟩,
          rest) :=
    runCopy_bits hv hmax (by dsimp only; omega) (by dsimp only; omega) (by dsimp only; omega) rest
  rw [Round.bits, List.append_assoc,
    expand_round (by omega) hrun (by dsimp only; omega) hcopy, Nat.sub_sub]
  rfl

/-- **A stream that fills the output is carried out** as it is written, and what is behind it is not
    read. -/
theorem expand_bits {table : OffsetTable} {capacity : Nat} (hmax : capacity ≤ maxLength)
    (rest : List Bool) (s : Stream) (out : Output) (hv : ∀ r ∈ s.rounds, r.copy.Valid table)
    (hc : CopiesProduced out.produced.length s.rounds)
    (hcap : out.remaining + out.produced.length = capacity) (hfill : s.length = out.remaining) :
    expand table capacity out (s.bits table ++ rest) = .ok ⟨0, s.apply out.produced⟩ := by
  obtain ⟨rounds, last⟩ := s
  dsimp only at hv hc
  induction rounds generalizing out with
  | nil =>
      have hlast : last.length = out.remaining := by
        rw [← hfill, Stream.length, total_nil, Nat.zero_add]
      by_cases h0 : last = []
      · subst h0
        have h0 : out.remaining = 0 := hlast.symm
        rw [expand_full h0, ← h0]
        rfl
      · have hrem : out.remaining ≠ 0 := by
          rw [← hlast]
          exact fun h => h0 (List.length_eq_zero_iff.1 h)
        have hrun := runLiterals_bits (Nat.le_of_eq hlast) (by omega) rest
        rw [hlast, Nat.sub_self] at hrun
        have hbits : Stream.bits table ⟨[], last⟩ = runBits last := if_neg h0
        rw [hbits]
        exact expand_run hrem hrun rfl
  | cons r rounds ih =>
      rw [Stream.length_cons] at hfill
      have happly : (r.apply out.produced).length = out.produced.length + r.length := by
        rw [Round.length_apply, Nat.add_comm]
      have hnext := ih ⟨out.remaining - r.length, r.apply out.produced⟩
        (by dsimp only; omega) (fun r' h => hv r' (List.mem_cons_of_mem r h))
        (by rw [happly]; exact hc.2) (by dsimp only; omega)
      rw [Stream.bits_cons, List.append_assoc,
        expand_cons (hv r List.mem_cons_self) hmax hcap (by omega) hc.1]
      exact hnext

end AmigaBinary.Decrunch.PowerPacker
