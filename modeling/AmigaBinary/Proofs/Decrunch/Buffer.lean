import AmigaBinary.Proofs.Decrunch.Output

/-!
# Buffers that are filled downwards

An output is what a decruncher leaves in a buffer: bytes are put below a position that moves down to
the start, and a copy reads the buffer wherever it is told to, whether a byte has been put there or
not. The writes do not depend on the contents, so a decruncher comes down to one source for each
byte (`Source`), and what its buffer holds is what these fill it with (`fill`). In a buffer of zero
bytes that is the output (`Shows.fill_of_blank`). In every other one it is the same exactly if each
copied byte had been put there before (`take_fill_eq_iff`).
-/

namespace AmigaBinary.Decrunch

/-- A byte that is copied inside of a buffer: where it is read, and where it is put. -/
structure Move where
  source : Nat
  target : Nat
  deriving DecidableEq, Repr

/-- What a move reads is a byte that has been produced before: of the lowest `size` bytes, which are
    the output, it is one above the byte that is put. -/
def Move.Produced (size : Nat) (m : Move) : Prop :=
  m.target < m.source ∧ m.source < size

instance (size : Nat) (m : Move) : Decidable (m.Produced size) :=
  inferInstanceAs (Decidable (_ ∧ _))

/-- A buffer whose bytes below `position` are still to be put there, with the moves made so far. -/
structure Buffer where
  cells : Bytes
  position : Nat
  moves : List Move
  deriving DecidableEq, Repr

/-- Where a byte comes from. -/
inductive Source where
  | literal (value : UInt8)
  /-- A byte at a distance ahead of the place where it goes. -/
  | ahead (distance : Nat)
  deriving DecidableEq, Repr

namespace Buffer

/-! ## 1. Filling a buffer -/

/-- A buffer of `capacity` bytes with the given contents, of which `size` are to be put there. -/
def start (initial : Nat → UInt8) (capacity size : Nat) : Buffer :=
  ⟨(List.range capacity).map initial, size, []⟩

/-- The buffer with another byte below the position. -/
def write (value : UInt8) (b : Buffer) : Buffer :=
  { b with cells := b.cells.set (b.position - 1) value, position := b.position - 1 }

/-- The buffer with a byte copied from a distance ahead. -/
def move (distance : Nat) (b : Buffer) : Buffer :=
  let source := b.position - 1 + distance
  { b.write (b.cells.getD source 0) with moves := b.moves ++ [⟨source, b.position - 1⟩] }

/-- A literal byte, if there is room for it. -/
def literal (codec : Codec) (value : Nat) (b : Buffer) : Except Error Buffer :=
  if b.position = 0 then .error (.outputOverrun codec 1 0)
  else .ok (b.write (UInt8.ofNat value))

/-- So many literal bytes from the bits of a stream. -/
def literals (codec : Codec) (exhausted : Error) :
    Nat → Buffer → List Bool → Except Error (Buffer × List Bool)
  | 0, b, bits => .ok (b, bits)
  | count + 1, b, bits => do
      let (value, bits) ← readBits exhausted 8 bits
      let b ← b.literal codec value
      literals codec exhausted count b bits

/-- So many bytes from a distance ahead, each of them from inside of the buffer. -/
def moveAll (codec : Codec) (distance : Nat) : Nat → Buffer → Except Error Buffer
  | 0, b => .ok b
  | count + 1, b =>
    if b.position - 1 + distance < b.cells.length then
      moveAll codec distance count (b.move distance)
    else .error (.copyOutOfRange codec (b.position - 1 + distance) b.cells.length)

/-- A copy of `count` bytes, if there is room for them. -/
def copy (codec : Codec) (distance count : Nat) (b : Buffer) : Except Error Buffer :=
  if b.position < count then .error (.outputOverrun codec count b.position)
  else b.moveAll codec distance count

/-- The buffer with another byte from its source, whatever the source is. -/
def put (b : Buffer) : Source → Buffer
  | .literal value => b.write value
  | .ahead distance => b.move distance

/-- The buffer with one byte after the other from their sources. -/
def fill (sources : List Source) (b : Buffer) : Buffer :=
  sources.foldl put b

end Buffer

/-- The moves of sources, from a position downwards. -/
def movesFrom : Nat → List Source → List Move
  | _, [] => []
  | position, .literal _ :: sources => movesFrom (position - 1) sources
  | position, .ahead distance :: sources =>
      ⟨position - 1 + distance, position - 1⟩ :: movesFrom (position - 1) sources

theorem movesFrom_append (position : Nat) (front back : List Source) :
    movesFrom position (front ++ back)
      = movesFrom position front ++ movesFrom (position - front.length) back := by
  induction front generalizing position with
  | nil => rfl
  | cons s front ih =>
      have hp : position - (s :: front).length = position - 1 - front.length := by
        rw [List.length_cons, Nat.sub_sub, Nat.add_comm]
      rw [hp]
      cases s <;> simp [movesFrom, ih]

theorem movesFrom_literals (position : Nat) (bytes : Bytes) :
    movesFrom position (bytes.map .literal) = [] := by
  induction bytes generalizing position with
  | nil => rfl
  | cons byte bytes ih => exact ih _

theorem mem_movesFrom_copies {position distance count : Nat} {m : Move} :
    m ∈ movesFrom position (List.replicate count (.ahead distance)) ↔
      ∃ i < count, m = ⟨position - 1 - i + distance, position - 1 - i⟩ := by
  induction count generalizing position with
  | zero => simp [movesFrom]
  | succ count ih =>
      have hnext (i : Nat) : position - 1 - (i + 1) = position - 1 - 1 - i := by omega
      rw [List.replicate_succ, movesFrom, List.mem_cons, ih]
      constructor
      · intro h
        rcases h with rfl | ⟨i, hi, rfl⟩
        · exact ⟨0, Nat.succ_pos _, rfl⟩
        · exact ⟨i + 1, Nat.succ_lt_succ hi, by rw [hnext i]⟩
      · intro h
        obtain ⟨i, hi, rfl⟩ := h
        cases i with
        | zero => exact .inl rfl
        | succ i => exact .inr ⟨i, Nat.lt_of_succ_lt_succ hi, by rw [hnext i]⟩

/-- Moves go below the position. -/
theorem target_lt {position : Nat} {sources : List Source} (h : sources.length ≤ position) :
    ∀ m ∈ movesFrom position sources, m.target < position := by
  induction sources generalizing position with
  | nil => exact List.forall_mem_nil _
  | cons s sources ih =>
      rw [List.length_cons] at h
      have hrest : ∀ m ∈ movesFrom (position - 1) sources, m.target < position := fun m hm =>
        Nat.lt_of_lt_of_le (ih (Nat.le_sub_one_of_lt h) m hm) (Nat.sub_le position 1)
      cases s with
      | literal value => exact hrest
      | ahead distance =>
          exact List.forall_mem_cons.2 ⟨Nat.sub_lt (Nat.zero_lt_of_lt h) Nat.one_pos, hrest⟩

namespace Buffer

variable {b : Buffer} {sources : List Source} {i : Nat}

@[simp] theorem length_start (initial : Nat → UInt8) (capacity size : Nat) :
    (start initial capacity size).cells.length = capacity := by
  rw [start, List.length_map, List.length_range]

theorem fill_append (front back : List Source) (b : Buffer) :
    b.fill (front ++ back) = (b.fill front).fill back :=
  List.foldl_append

@[simp] theorem position_put (s : Source) (b : Buffer) : (b.put s).position = b.position - 1 := by
  cases s <;> rfl

@[simp] theorem length_put (s : Source) (b : Buffer) :
    (b.put s).cells.length = b.cells.length := by
  cases s <;> exact List.length_set

/-- The value that a source gives. -/
def value (b : Buffer) : Source → UInt8
  | .literal value => value
  | .ahead distance => b.cells.getD (b.position - 1 + distance) 0

theorem cells_put (s : Source) (b : Buffer) :
    (b.put s).cells = b.cells.set (b.position - 1) (b.value s) := by
  cases s <;> rfl

theorem moves_put (s : Source) (b : Buffer) :
    (b.put s).moves = b.moves ++ movesFrom b.position [s] := by
  cases s
  · exact (List.append_nil _).symm
  · rfl

@[simp] theorem position_fill (sources : List Source) (b : Buffer) :
    (b.fill sources).position = b.position - sources.length := by
  induction sources generalizing b with
  | nil => rfl
  | cons s sources ih =>
      show ((b.put s).fill sources).position = _
      rw [ih, position_put, List.length_cons, Nat.sub_sub, Nat.add_comm]

@[simp] theorem length_fill (sources : List Source) (b : Buffer) :
    (b.fill sources).cells.length = b.cells.length := by
  induction sources generalizing b with
  | nil => rfl
  | cons s sources ih =>
      show ((b.put s).fill sources).cells.length = _
      rw [ih, length_put]

/-- The moves that are made depend on the sources only. -/
theorem moves_fill (sources : List Source) (b : Buffer) :
    (b.fill sources).moves = b.moves ++ movesFrom b.position sources := by
  induction sources generalizing b with
  | nil => exact (List.append_nil _).symm
  | cons s sources ih =>
      show ((b.put s).fill sources).moves = _
      rw [ih, moves_put, position_put, List.append_assoc]
      exact congrArg (b.moves ++ ·) (movesFrom_append b.position [s] sources).symm

/-- What is at and above the position stays as it is. -/
theorem getElem?_fill (hl : sources.length ≤ b.position) (hi : b.position ≤ i) :
    (b.fill sources).cells[i]? = b.cells[i]? := by
  induction sources generalizing b with
  | nil => rfl
  | cons s sources ih =>
      rw [List.length_cons] at hl
      show ((b.put s).fill sources).cells[i]? = _
      rw [ih (by rw [position_put]; omega) (by rw [position_put]; omega), cells_put,
        List.getElem?_set_ne (by omega)]

end Buffer

/-! ## 2. The output that a buffer shows -/

namespace Output

variable {out : Output}

/-- The value that a source gives. -/
def value (out : Output) : Source → UInt8
  | .literal value => value
  | .ahead distance => out.ahead distance

/-- The output with one byte after the other from their sources. -/
def fill (sources : List Source) (out : Output) : Output :=
  sources.foldl (fun out s => out.push (out.value s)) out

theorem fill_cons (s : Source) (sources : List Source) (out : Output) :
    out.fill (s :: sources) = (out.push (out.value s)).fill sources := rfl

theorem fill_literals (bytes : Bytes) (out : Output) :
    out.fill (bytes.map .literal)
      = ⟨out.remaining - bytes.length, bytes.reverse ++ out.produced⟩ := by
  induction bytes generalizing out with
  | nil => rfl
  | cons byte bytes ih =>
      show (out.push byte).fill (bytes.map .literal) = _
      rw [ih, push, List.reverse_cons, List.append_assoc, List.length_cons, Nat.sub_sub,
        Nat.add_comm 1]
      rfl

theorem fill_copies (distance count : Nat) (out : Output) :
    out.fill (List.replicate count (.ahead distance)) = out.pushCopies distance count := by
  induction count generalizing out with
  | zero => rfl
  | succ count ih => exact ih _

theorem drop_fill (sources : List Source) (out : Output) :
    (out.fill sources).produced.drop sources.length = out.produced := by
  induction sources generalizing out with
  | nil => rfl
  | cons s sources ih =>
      rw [fill_cons, List.length_cons, ← List.drop_drop, ih]
      rfl

end Output

namespace Buffer

variable {b : Buffer} {out : Output} {s : Source} {sources : List Source} {size : Nat} {v : UInt8}

/-- A buffer has room for an output of `size` bytes, and from its position on it holds those of
    them that have been produced. -/
structure Shows (b : Buffer) (out : Output) (size : Nat) : Prop where
  position : b.position = out.remaining
  total : out.remaining + out.produced.length = size
  room : size ≤ b.cells.length
  produced : out.produced <+: b.cells.drop b.position

/-- Outside of what has been put there, a buffer holds one value only. -/
def Blank (b : Buffer) (v : UInt8) (size : Nat) : Prop :=
  ∀ i < b.cells.length, i < b.position ∨ size ≤ i → b.cells[i]? = some v

theorem Shows.start {capacity : Nat} (h : size ≤ capacity) (initial : Nat → UInt8) :
    (start initial capacity size).Shows (.empty size) size where
  position := rfl
  total := rfl
  room := by rwa [length_start]
  produced := List.nil_prefix

theorem Blank.start (v : UInt8) (capacity size : Nat) :
    (start (fun _ => v) capacity size).Blank v size := by
  intro i hi _
  rw [length_start] at hi
  rw [Buffer.start, List.getElem?_map, List.getElem?_range hi]
  rfl

theorem Shows.position_le (h : b.Shows out size) : b.position ≤ size := by
  rw [h.position, ← h.total]
  exact Nat.le_add_right _ _

theorem Shows.cell_lt (h : b.Shows out size) (hp : 0 < b.position) :
    b.position - 1 < b.cells.length := by
  have hle := Nat.le_trans h.position_le h.room
  omega

/-- A buffer still shows the output when the same value is put to both. -/
theorem Shows.put (h : b.Shows out size) (hp : 0 < b.position) (hv : b.value s = out.value s) :
    (b.put s).Shows (out.push (out.value s)) size where
  position := by
    rw [position_put, h.position]
    rfl
  total := by
    have h1 := h.position
    have h2 := h.total
    simp only [Output.push, List.length_cons]
    omega
  room := by
    rw [length_put]
    exact h.room
  produced := by
    have hc := h.cell_lt hp
    have hd : (b.put s).cells.drop (b.position - 1) = b.value s :: b.cells.drop b.position := by
      rw [cells_put, List.drop_set, if_neg (Nat.lt_irrefl _), Nat.sub_self,
        List.drop_eq_getElem_cons hc, List.set_cons_zero, Nat.sub_add_cancel hp]
    rw [position_put, hd, hv]
    exact (List.prefix_cons_inj _).2 h.produced

theorem Blank.put (h : b.Blank v size) (hp : 0 < b.position) (hs : b.position ≤ size) :
    (b.put s).Blank v size := by
  intro i hi ho
  rw [length_put] at hi
  rw [position_put] at ho
  rw [cells_put, List.getElem?_set_ne (by omega)]
  exact h i hi (by omega)

/-! ## 3. Reading what has been produced -/

/-- A produced byte is read from the buffer as it is read from the output. -/
theorem Shows.value_of_produced (h : b.Shows out size) (hp : 0 < b.position)
    (hm : ∀ m ∈ movesFrom b.position [s], m.Produced size) : b.value s = out.value s := by
  cases s with
  | literal value => rfl
  | ahead distance =>
      obtain ⟨hlt, hle⟩ := hm ⟨_, _⟩ List.mem_cons_self
      simp only at hlt hle
      cases distance with
      | zero => omega
      | succ index =>
          have hi : index < out.produced.length := by
            have h1 := h.position
            have h2 := h.total
            omega
          obtain ⟨behind, hb⟩ := h.produced
          show b.cells.getD (b.position - 1 + (index + 1)) 0 = out.produced.getD index 0
          rw [show b.position - 1 + (index + 1) = b.position + index by omega,
            List.getD_eq_getElem?_getD, List.getD_eq_getElem?_getD, ← List.getElem?_drop, ← hb,
            List.getElem?_append_left hi]

/-- A byte that has not been produced is zero in the output. -/
theorem Shows.ahead_of_not_produced (h : b.Shows out size) (hp : 0 < b.position) {distance : Nat}
    (hm : ¬ Move.Produced size ⟨b.position - 1 + distance, b.position - 1⟩) :
    out.ahead distance = 0 := by
  cases distance with
  | zero => rfl
  | succ index =>
      have hi : out.produced.length ≤ index := by
        have h1 := h.position
        have h2 := h.total
        simp only [Move.Produced, not_and, Nat.not_lt] at hm
        have := hm (by omega)
        omega
      rw [Output.ahead, List.getD_eq_getElem?_getD, List.getElem?_eq_none hi]
      rfl

/-- A byte that has not been produced is what the buffer held from the start. -/
theorem Blank.value_of_not_produced (h : b.Blank v size) (hp : 0 < b.position) {distance : Nat}
    (hm : ¬ Move.Produced size ⟨b.position - 1 + distance, b.position - 1⟩)
    (hr : b.position - 1 + distance < b.cells.length) : b.value (.ahead distance) = v := by
  have hout : b.position - 1 + distance < b.position ∨ size ≤ b.position - 1 + distance := by
    simp only [Move.Produced, not_and_or, Nat.not_lt] at hm
    omega
  rw [value, List.getD_eq_getElem?_getD, h _ hr hout]
  rfl

/-- In a buffer of zero bytes every byte is read as from the output. -/
theorem Shows.value_of_blank (h : b.Shows out size) (hb : b.Blank 0 size) (hp : 0 < b.position) :
    b.value s = out.value s := by
  cases s with
  | literal value => rfl
  | ahead distance =>
      by_cases hm : Move.Produced size ⟨b.position - 1 + distance, b.position - 1⟩
      · exact h.value_of_produced hp (List.forall_mem_singleton.2 hm)
      · refine Eq.trans ?_ (h.ahead_of_not_produced hp hm).symm
        rcases Nat.lt_or_ge (b.position - 1 + distance) b.cells.length with hr | hr
        · exact hb.value_of_not_produced hp hm hr
        · rw [value, List.getD_eq_getElem?_getD, List.getElem?_eq_none hr]
          rfl

/-! ## 4. Filling a buffer -/

/-- **A buffer of zero bytes is filled with the output.** -/
theorem Shows.fill_of_blank (h : b.Shows out size) (hb : b.Blank 0 size)
    (hl : sources.length ≤ b.position) : (b.fill sources).Shows (out.fill sources) size := by
  induction sources generalizing b out with
  | nil => exact h
  | cons s sources ih =>
      rw [List.length_cons] at hl
      have hp : 0 < b.position := by omega
      refine ih (h.put hp (h.value_of_blank hb hp)) (hb.put hp h.position_le) ?_
      rw [position_put]
      omega

/-- **Moves of produced bytes fill any buffer with the output.** -/
theorem Shows.fill_of_produced (h : b.Shows out size) (hl : sources.length ≤ b.position)
    (hm : ∀ m ∈ movesFrom b.position sources, m.Produced size) :
    (b.fill sources).Shows (out.fill sources) size := by
  induction sources generalizing b out with
  | nil => exact h
  | cons s sources ih =>
      rw [List.length_cons] at hl
      rw [show s :: sources = [s] ++ sources from rfl, movesFrom_append,
        List.forall_mem_append] at hm
      refine ih (h.put (by omega) (h.value_of_produced (by omega) hm.1)) ?_ ?_
      · rw [position_put]
        omega
      · rw [position_put]
        exact hm.2

/-- No byte is put over another one: if a filled buffer holds the output, each source has given both
    of them the same value. -/
theorem Shows.value_of_fill (h : b.Shows out size) (hl : (s :: sources).length ≤ b.position)
    (hf : (out.fill (s :: sources)).produced
      <+: (b.fill (s :: sources)).cells.drop (b.fill (s :: sources)).position) :
    b.value s = out.value s := by
  rw [List.length_cons] at hl
  have hc := h.cell_lt (by omega)
  have hcell : (b.fill (s :: sources)).cells[b.position - 1]? = some (b.value s) := by
    show ((b.put s).fill sources).cells[b.position - 1]? = _
    rw [getElem?_fill (by rw [position_put]; omega) (Nat.le_of_eq (position_put s b)),
      cells_put, List.getElem?_set_self hc]
  have hout : (out.fill (s :: sources)).produced[sources.length]? = some (out.value s) := by
    rw [← Nat.add_zero sources.length, ← List.getElem?_drop, Output.fill_cons, Output.drop_fill]
    rfl
  obtain ⟨behind, hb⟩ := hf
  have hlt : sources.length < (out.fill (s :: sources)).produced.length :=
    (List.getElem?_eq_some_iff.1 hout).1
  have he := congrArg (·[sources.length]?) hb
  simp only [List.getElem?_append_left hlt, hout, List.getElem?_drop, position_fill,
    List.length_cons] at he
  rw [show b.position - (sources.length + 1) + sources.length = b.position - 1 by omega, hcell]
    at he
  exact (Option.some.inj he).symm

/-- **A move of a byte that was not produced shows**, if the buffer held anything but zero bytes. -/
theorem Blank.produced_of_fill (hb : b.Blank v size) (hv : v ≠ 0) (h : b.Shows out size)
    (hl : sources.length ≤ b.position)
    (hr : ∀ m ∈ movesFrom b.position sources, m.source < b.cells.length)
    (hf : (out.fill sources).produced <+: (b.fill sources).cells.drop (b.fill sources).position) :
    ∀ m ∈ movesFrom b.position sources, m.Produced size := by
  induction sources generalizing b out with
  | nil => exact List.forall_mem_nil _
  | cons s sources ih =>
      have hp : 0 < b.position := Nat.lt_of_lt_of_le (Nat.succ_pos _) hl
      have hsplit := movesFrom_append b.position [s] sources
      rw [List.singleton_append] at hsplit
      rw [hsplit, List.forall_mem_append] at hr ⊢
      have hl' : sources.length ≤ (b.put s).position := by
        rw [position_put]
        exact Nat.le_sub_one_of_lt hl
      have hvalue := h.value_of_fill hl hf
      have hfirst : ∀ m ∈ movesFrom b.position [s], m.Produced size := by
        cases s with
        | literal value => exact List.forall_mem_nil _
        | ahead distance =>
            refine List.forall_mem_singleton.2 (Classical.byContradiction fun hm => hv ?_)
            rw [← hb.value_of_not_produced hp hm (hr.1 _ List.mem_cons_self), hvalue]
            exact h.ahead_of_not_produced hp hm
      refine ⟨hfirst, ?_⟩
      have hrest := ih (hb.put hp h.position_le) (h.put hp hvalue) hl' ?_ hf
      · rwa [position_put] at hrest
      · rw [position_put, length_put]
        exact hr.2

/-! ## 5. Whole buffers -/

/-- Once the position is at its start, a buffer has the output in front. -/
theorem Shows.take_cells (h : b.Shows out size) (h0 : b.position = 0) :
    b.cells.take size = out.produced := by
  have hp := h.position
  have ht := h.total
  have hfront := h.produced
  rw [h0, List.drop_zero, List.prefix_iff_eq_take] at hfront
  rw [hfront, ← ht, ← hp, h0, Nat.zero_add]

section Whole

variable {capacity : Nat} (hl : sources.length = size) (hc : size ≤ capacity)
include hl hc

theorem take_fill_start :
    ((start (fun _ => 0) capacity size).fill sources).cells.take size
      = ((Output.empty size).fill sources).produced := by
  have hs := (Shows.start hc fun _ => 0).fill_of_blank (.start 0 capacity size) (Nat.le_of_eq hl)
  refine hs.take_cells ?_
  rw [position_fill, hl]
  exact Nat.sub_self size

/-- **A buffer of any contents is filled with the output exactly if each copied byte had been
    produced before.** -/
theorem take_fill_eq_iff (hr : ∀ m ∈ movesFrom size sources, m.source < capacity) :
    (∀ initial, ((start initial capacity size).fill sources).cells.take size
      = ((Output.empty size).fill sources).produced) ↔
        ∀ m ∈ movesFrom size sources, m.Produced size := by
  have h0 (initial : Nat → UInt8) : ((start initial capacity size).fill sources).position = 0 := by
    rw [position_fill, hl]
    exact Nat.sub_self size
  constructor
  · intro h
    refine (Blank.start 1 capacity size).produced_of_fill (by decide) (.start hc _)
      (Nat.le_of_eq hl) (by rwa [length_start]) ?_
    rw [h0, List.drop_zero, ← h fun _ => 1]
    exact List.take_prefix _ _
  · intro h initial
    exact ((Shows.start hc initial).fill_of_produced (Nat.le_of_eq hl) h).take_cells (h0 initial)

end Whole

/-! ## 6. Writes that are checked -/

variable {codec : Codec} {exhausted e : Error}

theorem literal_eq (hp : b.position = out.remaining) (value : Nat) :
    b.literal codec value
      = (out.literal codec value).map fun _ => b.put (.literal (UInt8.ofNat value)) := by
  unfold literal Output.literal Output.require
  rcases Nat.eq_zero_or_pos out.remaining with h0 | h0
  · rw [if_pos (hp.trans h0), if_neg (by omega), h0]
    rfl
  · rw [if_neg (by omega), if_pos (show 1 ≤ out.remaining from h0)]
    rfl

/-- Literal bytes that fit are put into the buffer. -/
theorem literals_byteBits {bytes : Bytes} (h : bytes.length ≤ b.position) (rest : List Bool) :
    b.literals codec exhausted bytes.length (byteBits bytes ++ rest)
      = .ok (b.fill (bytes.map .literal), rest) := by
  induction bytes generalizing b with
  | nil => rfl
  | cons byte bytes ih =>
      rw [List.length_cons] at h
      have hread : readBits exhausted 8 (highestFirst 8 byte.toNat ++ (byteBits bytes ++ rest))
          = .ok (byte.toNat, byteBits bytes ++ rest) := readBits_eq_ok.2 ⟨byte.toNat_lt, rfl⟩
      have hput : b.literal codec byte.toNat = .ok (b.put (.literal byte)) := by
        rw [literal, if_neg (by omega), UInt8.ofNat_toNat]
        rfl
      rw [byteBits_cons, List.append_assoc]
      refine bind_eq_ok.2 ⟨_, hread, bind_eq_ok.2 ⟨_, hput, ih ?_⟩⟩
      rw [position_put]
      omega

/-- What fails for an output fails for its buffer. -/
theorem literals_eq_error {count : Nat} {bits : List Bool} (hp : b.position = out.remaining)
    (h : out.literals codec exhausted count bits = .error e) :
    b.literals codec exhausted count bits = .error e := by
  induction count generalizing b out bits with
  | zero => cases h
  | succ count ih =>
      rw [Output.literals] at h
      rw [literals]
      rcases bind_eq_error.1 h with hr | ⟨⟨value, rest⟩, hr, h⟩
      · exact bind_eq_error.2 (.inl hr)
      · refine bind_eq_error.2 (.inr ⟨_, hr, ?_⟩)
        have hv : b.literal codec value = _ := literal_eq hp value
        rcases bind_eq_error.1 h with ho | ⟨next, ho, h⟩
        · rw [ho] at hv
          exact bind_eq_error.2 (.inl hv)
        · rw [ho] at hv
          refine bind_eq_error.2 (.inr ⟨_, hv, ih ?_ h⟩)
          rw [position_put, hp, (Output.literal_eq_ok.1 ho).2]
          rfl

/-- The bytes of a copy are read downwards, so the first of them is the one that can be outside. -/
theorem moveAll_of_lt {distance : Nat} (count : Nat)
    (h : b.position - 1 + distance < b.cells.length) :
    b.moveAll codec distance count = .ok (b.fill (List.replicate count (.ahead distance))) := by
  induction count generalizing b with
  | zero => rfl
  | succ count ih =>
      rw [moveAll, if_pos h]
      refine ih ?_
      show (b.put (.ahead distance)).position - 1 + distance
        < (b.put (.ahead distance)).cells.length
      rw [position_put, length_put]
      omega

/-- A copy of a byte and more is made, or fails, as for the output. -/
theorem copy_eq {distance count : Nat} (hp : b.position = out.remaining) (h1 : 0 < count) :
    b.copy codec distance count = (out.copy codec b.cells.length distance count).map fun _ =>
      b.fill (List.replicate count (.ahead distance)) := by
  unfold copy Output.copy Output.require
  rcases Nat.lt_or_ge out.remaining count with hlt | hge
  · rw [if_pos (hp ▸ hlt), if_neg (Nat.not_le.2 hlt), hp]
    rfl
  · rw [if_neg (hp ▸ Nat.not_lt.2 hge), if_pos hge, ← hp]
    dsimp only
    by_cases hr : b.position - 1 + distance < b.cells.length
    · rw [moveAll_of_lt count hr, if_pos hr]
      rfl
    · obtain ⟨count, rfl⟩ := Nat.exists_eq_succ_of_ne_zero (Nat.ne_of_gt h1)
      rw [moveAll, if_neg hr, if_neg hr]
      rfl

end Buffer

end AmigaBinary.Decrunch
