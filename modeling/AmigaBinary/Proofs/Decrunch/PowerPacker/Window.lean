import AmigaBinary.Decrunch.PowerPacker
import AmigaBinary.Proofs.Decrunch.Bits

/-!
# The window behind the bits

The bits of a stream come out of a window of 32 bits that counts how many of them are still to be
read. When none is left, the next word is loaded. The window gives exactly the bits of its stream,
one after the other (`take_of_stream`), and the stream of the window at the start is that of the
packed data without the bits that are skipped (`stream_start`).
-/

namespace AmigaBinary.Decrunch.PowerPacker

/-- A window with `count` bits to read, and the words that were not read yet. -/
structure Window where
  buffer : UInt32
  count : Nat
  unread : List UInt32
  deriving DecidableEq, Repr

namespace Window

variable {w w' : Window}

/-! ## 1. One bit -/

/-- The window with a word loaded, if it has no bit left. -/
def load (w : Window) : Option Window :=
  if w.count = 0 then
    match w.unread with
    | [] => none
    | word :: unread => some ⟨word, 32, unread⟩
  else some w

/-- The lowest bit, and the window without it. -/
def shift (w : Window) : Bool × Window :=
  (w.buffer.toNat.testBit 0, { w with buffer := w.buffer >>> 1, count := w.count - 1 })

/-- The next bit. -/
def next (w : Window) : Option (Bool × Window) :=
  w.load.map shift

/-- The bits that are still to be read. -/
def stream (w : Window) : List Bool :=
  lowestFirst w.count w.buffer.toNat ++ longBits w.unread

/-- A loaded word is part of the stream before and after. -/
theorem stream_of_load (h : w.load = some w') : w.stream = w'.stream ∧ 0 < w'.count := by
  unfold load at h
  split at h
  · rename_i h0
    cases hu : w.unread with
    | nil =>
        rw [hu] at h
        cases h
    | cons word unread =>
        rw [hu] at h
        obtain rfl := Option.some.inj h
        refine ⟨?_, Nat.succ_pos 31⟩
        unfold stream
        rw [h0, hu]
        rfl
  · rename_i h0
    obtain rfl := Option.some.inj h
    exact ⟨rfl, Nat.pos_iff_ne_zero.2 h0⟩

theorem stream_of_load_none (h : w.load = none) : w.stream = [] := by
  unfold load at h
  split at h
  · rename_i h0
    cases hu : w.unread with
    | nil =>
        unfold stream
        rw [h0, hu]
        rfl
    | cons word unread =>
        rw [hu] at h
        cases h
  · cases h

theorem stream_shift (h : 0 < w.count) : w.stream = w.shift.1 :: w.shift.2.stream := by
  obtain ⟨count, hc⟩ := Nat.exists_eq_add_of_le' h
  unfold shift stream
  dsimp only
  rw [hc, lowestFirst_succ, toNat_shift]
  rfl

/-- **The next bit is the first one of the stream.** -/
theorem stream_of_next {bit : Bool} (h : w.next = some (bit, w')) :
    w.stream = bit :: w'.stream := by
  obtain ⟨loaded, hl, hs⟩ := Option.map_eq_some_iff.1 h
  obtain ⟨hstream, hpos⟩ := stream_of_load hl
  rw [hstream, stream_shift hpos, hs]

/-- There is a next bit as long as the stream has one. -/
theorem stream_of_next_none (h : w.next = none) : w.stream = [] :=
  stream_of_load_none (Option.map_eq_none_iff.1 h)

/-! ## 2. Many bits -/

/-- The next `count` bits. -/
def take : Nat → Window → Option (List Bool × Window)
  | 0, w => some ([], w)
  | count + 1, w =>
    match w.next with
    | none => none
    | some (bit, w) => (take count w).map fun (bits, w) => (bit :: bits, w)

/-- **The window gives the bits of its stream**, in their order. -/
theorem take_of_stream {bits rest : List Bool} (h : w.stream = bits ++ rest) :
    ∃ behind, w.take bits.length = some (bits, behind) ∧ behind.stream = rest := by
  induction bits generalizing w with
  | nil => exact ⟨w, rfl, h⟩
  | cons bit bits ih =>
      cases hn : w.next with
      | none =>
          rw [stream_of_next_none hn] at h
          cases h
      | some result =>
          obtain ⟨first, behind⟩ := result
          rw [stream_of_next hn, List.cons_append, List.cons.injEq] at h
          obtain ⟨rfl, hs⟩ := h
          obtain ⟨behind, ht, hb⟩ := ih hs
          refine ⟨behind, ?_, hb⟩
          rw [List.length_cons, take, hn]
          dsimp only
          rw [ht]
          rfl

/-! ## 3. The start -/

/-- The window at the start: the lowest `skip` bits of the first word are gone. -/
def start (skip : Nat) (first : UInt32) (words : List UInt32) : Window :=
  ⟨first >>> UInt32.ofNat skip, 32 - skip, words⟩

/-- **The window starts with the bits of the stream.** -/
theorem stream_start {skip : Nat} (h : skip < 32) (first : UInt32) (words : List UInt32) :
    (start skip first words).stream = streamBits skip first words := by
  have hbits := lowestFirst_add skip (32 - skip) first.toNat
  rw [Nat.add_sub_cancel' (Nat.le_of_lt h)] at hbits
  unfold stream start streamBits
  dsimp only
  rw [toNat_shiftRight h, hbits, List.drop_left' (length_lowestFirst skip first.toNat)]
  rfl

end Window

end AmigaBinary.Decrunch.PowerPacker
