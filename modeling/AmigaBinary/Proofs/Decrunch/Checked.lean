import AmigaBinary.Proofs.Decrunch.Buffer

/-!
# Decrunching in checked steps

A decruncher works with indices and with words of 32 bits. Here its steps are checked (`Checked`):
after an index outside of its data, a difference below zero or a shift by a whole word there is no
answer, and none after a loop that is still going on when it has reached its limit of rounds. A
checked computation refines another one if it has an answer to everything, the same errors and
related values (`Refines`). The memory has a log of what was written
where, and read where (`Memory`). It tracks an output as long as each byte is put into a cell of its
own and copied from a cell that was written before (`Memory.Tracks`, `Memory.Tracks.put`).
-/

namespace AmigaBinary.Decrunch

/-! ## 1. Checked steps -/

/-- A computation that has an answer only if all its steps are in bounds and all its loops end
    within their limits. -/
abbrev Checked := ExceptT Error Option

namespace Checked

variable {α β : Type}

/-- No answer: a step was out of bounds, or a loop beyond its limit. -/
def fault : Checked α :=
  ExceptT.mk none

/-- A difference. It is not below zero. -/
def subtract (a b : Nat) : Checked Nat :=
  if b ≤ a then pure (a - b) else fault

/-- A word shifted to the right, by less than its width. -/
def shiftRight (word : UInt32) (n : Nat) : Checked UInt32 :=
  if n < 32 then pure (word >>> UInt32.ofNat n) else fault

/-- A word shifted to the left, by less than its width. -/
def shiftLeft (word : UInt32) (n : Nat) : Checked UInt32 :=
  if n < 32 then pure (word <<< UInt32.ofNat n) else fault

/-- The word of which the lowest `n` bits are set. -/
def lowMask (n : Nat) : Checked UInt32 := do
  let unit ← shiftLeft 1 n
  if 1 ≤ unit then pure (unit - 1) else fault

theorem subtract_of_le {a b : Nat} (h : b ≤ a) : subtract a b = pure (a - b) :=
  if_pos h

theorem shiftRight_of_lt {n : Nat} (h : n < 32) (word : UInt32) :
    shiftRight word n = pure (word >>> UInt32.ofNat n) :=
  if_pos h

theorem shiftLeft_of_lt {n : Nat} (h : n < 32) (word : UInt32) :
    shiftLeft word n = pure (word <<< UInt32.ofNat n) :=
  if_pos h

/-- What goes on after a success goes on with its value. -/
theorem ofExcept_ok_bind (a : α) (f : α → Checked β) :
    (MonadExcept.ofExcept (Except.ok a : Except Error α) >>= f) = f a := rfl

theorem lowMask_of_lt {n : Nat} (h : n < 32) : lowMask n = pure (1 <<< UInt32.ofNat n - 1) := by
  rw [lowMask, shiftLeft_of_lt h, pure_bind, if_pos (one_le_one_shiftLeft h)]

end Checked

/-- A checked computation has an answer, and it is that of another computation up to a relation of
    the values. -/
inductive Refines {α β : Type} (R : α → β → Prop) : Checked α → Except Error β → Prop where
  | ok {a : α} {b : β} (h : R a b) : Refines R (pure a) (.ok b)
  | error (e : Error) : Refines R (throw e) (.error e)

namespace Refines

variable {α β γ δ : Type} {R : α → β → Prop} {S : γ → δ → Prop} {x : Checked α} {y : Except Error β}

/-- **A sequence refines a sequence** whose parts are refined. -/
theorem bind {f : α → Checked γ} {g : β → Except Error δ} (hx : Refines R x y)
    (hf : ∀ a b, R a b → Refines S (f a) (g b)) : Refines S (x >>= f) (y >>= g) := by
  cases hx with
  | ok h => exact hf _ _ h
  | error e => exact .error e

theorem bind_map {f : α → Checked γ} {g : β → δ} (hx : Refines R x y)
    (hf : ∀ a b, R a b → Refines S (f a) (.ok (g b))) : Refines S (x >>= f) (y.map g) := by
  cases hx with
  | ok h => exact hf _ _ h
  | error e => exact .error e

/-- What is made of the answers is related if they are. -/
theorem map {T : α → δ → Prop} {g : β → δ} (hx : Refines R x y) (hg : ∀ a b, R a b → T a (g b)) :
    Refines T x (y.map g) := by
  cases hx with
  | ok h => exact .ok (hg _ _ h)
  | error e => exact .error e

theorem mono {R' : α → β → Prop} (hx : Refines R x y) (h : ∀ a b, R a b → R' a b) :
    Refines R' x y := by
  cases hx with
  | ok hr => exact .ok (h _ _ hr)
  | error e => exact .error e

/-- The value is also known to be the answer. -/
theorem and_ok (hx : Refines R x y) : Refines (fun a b => R a b ∧ y = .ok b) x y := by
  cases hx with
  | ok h => exact .ok ⟨h, rfl⟩
  | error e => exact .error e

end Refines

/-! ## 2. Memory with a log -/

/-- A byte that was put into a cell: where it was put, and the cell it was read from if it was
    copied. -/
structure Write where
  target : Nat
  source : Option Nat
  deriving DecidableEq, Repr

/-- Each copied byte was read from a cell that was written before. The last write comes first. -/
def ReadsWritten : List Write → Prop
  | [] => True
  | w :: earlier => (∀ cell ∈ w.source, cell ∈ earlier.map Write.target) ∧ ReadsWritten earlier

/-- The cell that a source is read from for a byte at `target`. -/
def Source.cell (target : Nat) : Source → Option Nat
  | .literal _ => none
  | .ahead distance => some (target + distance)

/-- A buffer, with what was written to it so far; the last write comes first. -/
structure Memory where
  buffer : Buffer
  log : List Write

namespace Memory

open Checked

/-- Memory for an output of `size` bytes. -/
def start (initial : Nat → UInt8) (size : Nat) : Memory :=
  ⟨.start initial size size, []⟩

/-- The cell below the position. -/
def below (m : Memory) : Checked Nat :=
  subtract m.buffer.position 1

/-- Puts a byte into the cell below the position. This cell is there, and so is the one that the byte
    is read from. -/
def put (s : Source) (m : Memory) : Checked Memory := do
  let target ← m.below
  let size := m.buffer.cells.length
  if target < size ∧ ∀ cell ∈ s.cell target, cell < size then
    pure ⟨m.buffer.put s, ⟨target, s.cell target⟩ :: m.log⟩
  else fault

/-- Memory shows an output: it has a cell for each byte of it, those from the position on were
    written once each, and none was read before. -/
structure Tracks (size : Nat) (m : Memory) (out : Output) : Prop where
  shows : m.buffer.Shows out size
  full : m.buffer.cells.length = size
  targets : m.log.map Write.target = List.range' m.buffer.position (size - m.buffer.position)
  reads : ReadsWritten m.log

/-- The whole memory is the output: each of its cells was written once, and no copied byte was read
    from a cell that was not. -/
structure Filled (size : Nat) (m : Memory) (out : Bytes) : Prop where
  length : out.length = size
  cells : m.buffer.cells = out
  targets : m.log.map Write.target = List.range size
  reads : ReadsWritten m.log

variable {size : Nat} {m : Memory} {out : Output} {s : Source}

theorem Tracks.start (initial : Nat → UInt8) (size : Nat) :
    (start initial size).Tracks size (.empty size) where
  shows := .start (Nat.le_refl size) initial
  full := Buffer.length_start initial size size
  targets := by
    show [] = List.range' size (size - size)
    rw [Nat.sub_self]
    rfl
  reads := trivial

/-- An output that is complete fills the memory. -/
theorem Tracks.filled (h : m.Tracks size out) (h0 : out.remaining = 0) :
    m.Filled size out.produced := by
  have hposition : m.buffer.position = 0 := h.shows.position.trans h0
  have hcells := h.shows.take_cells hposition
  have htotal := h.shows.total
  have htargets := h.targets
  rw [hposition] at htargets
  rw [← h.full, List.take_length] at hcells
  refine ⟨by omega, hcells, ?_, h.reads⟩
  rw [htargets, List.range_eq_range', Nat.sub_zero]

theorem Tracks.below (h : m.Tracks size out) (hr : 0 < out.remaining) :
    m.below = pure (m.buffer.position - 1) :=
  subtract_of_le (h.shows.position ▸ hr)

/-- **A byte is put into a cell of its own**, if it is not copied or if it was produced before. -/
theorem Tracks.put (h : m.Tracks size out) (hr : 0 < out.remaining)
    (hm : ∀ move ∈ movesFrom m.buffer.position [s], move.Produced size) :
    Refines (Tracks size) (m.put s) (.ok (out.push (out.value s))) := by
  have hposition : 0 < m.buffer.position := h.shows.position ▸ hr
  have hle := h.shows.position_le
  have htarget := h.shows.cell_lt hposition
  have hcell : ∀ cell ∈ s.cell (m.buffer.position - 1),
      m.buffer.position ≤ cell ∧ cell < size := by
    intro cell hcell
    cases s with
    | literal value => cases hcell
    | ahead distance =>
        cases hcell
        obtain ⟨hlt, hsource⟩ := hm _ List.mem_cons_self
        exact ⟨by simp only at hlt; omega, hsource⟩
  have hinside : m.buffer.position - 1 < m.buffer.cells.length ∧
      ∀ cell ∈ s.cell (m.buffer.position - 1), cell < m.buffer.cells.length :=
    ⟨htarget, fun cell hc => h.full.symm ▸ (hcell cell hc).2⟩
  have hput : m.put s = pure ⟨m.buffer.put s,
      ⟨m.buffer.position - 1, s.cell (m.buffer.position - 1)⟩ :: m.log⟩ := by
    rw [Memory.put, h.below hr]
    exact if_pos hinside
  rw [hput]
  refine .ok ⟨h.shows.put hposition (h.shows.value_of_produced hposition hm), ?_, ?_, ?_, h.reads⟩
  · exact (Buffer.length_put s m.buffer).trans h.full
  · have hsize : size - (m.buffer.position - 1) = (size - m.buffer.position) + 1 := by omega
    rw [List.map_cons, h.targets, Buffer.position_put, hsize, List.range'_succ,
      Nat.sub_add_cancel hposition]
  · intro cell hc
    obtain ⟨hlow, hhigh⟩ := hcell cell hc
    rw [h.targets, List.mem_range'_1]
    omega

theorem Tracks.put_literal (h : m.Tracks size out) (hr : 0 < out.remaining) (value : UInt8) :
    Refines (Tracks size) (m.put (.literal value)) (.ok (out.push value)) :=
  h.put hr (List.forall_mem_nil _)

/-- A byte is copied from among the produced ones. -/
theorem Tracks.put_ahead (h : m.Tracks size out) (hr : 0 < out.remaining) {offset : Nat}
    {value : UInt8} (hv : out.produced[offset]? = some value) :
    Refines (Tracks size) (m.put (.ahead (offset + 1))) (.ok (out.push value)) := by
  have hposition := h.shows.position
  have htotal := h.shows.total
  obtain ⟨hlt, hget⟩ := List.getElem?_eq_some_iff.1 hv
  have hvalue : out.value (.ahead (offset + 1)) = value := by
    show out.produced.getD offset 0 = value
    rw [List.getD_eq_getElem?_getD, hv]
    rfl
  rw [← hvalue]
  refine h.put hr (List.forall_mem_singleton.2 ⟨?_, ?_⟩)
  · show m.buffer.position - 1 < m.buffer.position - 1 + (offset + 1)
    omega
  · show m.buffer.position - 1 + (offset + 1) < size
    omega

end Memory

/-! ## 3. Copies from a list -/

namespace Output

/-- So many bytes in front of the list, each of them from the same offset in it. An offset that no
    produced byte has is rejected. -/
def prepend (codec : Codec) (offset : Nat) : Nat → Output → Except Error Output
  | 0, out => .ok out
  | count + 1, out =>
    match out.produced[offset]? with
    | some value => prepend codec offset count (out.push value)
    | none => .error
        (.copyOutOfRange codec (out.remaining + offset) (out.remaining + out.produced.length))

/-- A copy of `count` bytes from an offset in the list of produced ones, if there is room. -/
def copyListed (codec : Codec) (offset count : Nat) (out : Output) : Except Error Output :=
  match out.require codec count with
  | .error e => .error e
  | .ok () => out.prepend codec offset count

variable {codec : Codec} {offset count : Nat} {out next : Output}

theorem prepend_of_lt (h : offset < out.produced.length) :
    out.prepend codec offset count = .ok (out.pushCopies (offset + 1) count) := by
  induction count generalizing out with
  | zero => rfl
  | succ count ih =>
      have hvalue : out.ahead (offset + 1) = out.produced[offset] :=
        (List.getElem_eq_getD 0).symm
      rw [prepend, List.getElem?_eq_getElem h, pushCopies, hvalue]
      exact ih (Nat.lt_succ_of_lt h)

/-- **A copy from the list is the copy inside of a buffer that has room for the output only.** -/
theorem copyListed_eq (hc : 0 < count) : out.copyListed codec offset count
    = out.copy codec (out.remaining + out.produced.length) (offset + 1) count := by
  unfold copyListed copy require
  by_cases hroom : count ≤ out.remaining
  · have hsource : out.remaining - 1 + (offset + 1) = out.remaining + offset := by omega
    rw [if_pos hroom]
    dsimp only
    rw [hsource]
    by_cases hlt : offset < out.produced.length
    · rw [if_pos (by omega), prepend_of_lt hlt]
    · obtain ⟨count, rfl⟩ := Nat.exists_eq_succ_of_ne_zero (Nat.ne_of_gt hc)
      rw [if_neg (by omega), prepend, List.getElem?_eq_none (Nat.not_lt.1 hlt)]
  · rw [if_neg hroom]

/-- A copy writes as many bytes as it says, and what it writes has been missing. -/
theorem total_of_copyListed (hc : 0 < count)
    (h : out.copyListed codec offset count = .ok next) :
    next.remaining + count = out.remaining ∧
      next.remaining + next.produced.length = out.remaining + out.produced.length := by
  rw [copyListed_eq hc] at h
  obtain ⟨hroom, -, rfl⟩ := copy_eq_ok.1 h
  rw [length_copyAhead]
  constructor
  · show out.remaining - count + count = out.remaining
    omega
  · show out.remaining - count + (count + out.produced.length) = _
    omega

end Output

end AmigaBinary.Decrunch
