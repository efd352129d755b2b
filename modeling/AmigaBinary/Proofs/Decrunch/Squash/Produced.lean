import AmigaBinary.Proofs.Decrunch.Buffer
import AmigaBinary.Proofs.Decrunch.Squash.RoundTrip
import AmigaBinary.Proofs.Decrunch.Squash.Size

/-!
# Copies of bytes that were not produced

A copy has to come from inside of the buffer, which may be greater than the output, and it may name
the very byte that it writes. So a squashed file is accepted also when it copies bytes that no token
has produced. To see what it makes of them, the file is unsquashed into a buffer of any contents
(`unsquashInto`), which logs its moves; with zero bytes this is `unsquash`
(`unsquashInto_zero`). Every buffer is accepted or refused alike. The output is the same in all of
them exactly if each copy names bytes that have been produced before (`produced_of_unsquash`).
-/

namespace AmigaBinary.Decrunch.Squash

/-! ## 1. Tokens in a buffer -/

/-- The effect of a command on a buffer. -/
def Command.fill (exhausted : Error) (command : Command) (b : Buffer) (bits : List Bool) :
    Except Error (Buffer × List Bool) :=
  match command with
  | .literals count => b.literals .squash exhausted count bits
  | .copy distance count => (b.copy .squash distance count).map (·, bits)

/-- The effect of the token at the front of a stream on a buffer. -/
def stepInto (exhausted : Error) (b : Buffer) (bits : List Bool) :
    Except Error (Buffer × List Bool) := do
  let (command, bits) ← readCommand exhausted bits
  command.fill exhausted b bits

/-- The sources of the bytes of a token. -/
def Token.sources : Token → List Source
  | .literals bytes => bytes.map .literal
  | .copy shape distance => List.replicate shape.count (.ahead distance)

/-- The sources of the bytes of tokens. -/
def sources (tokens : List Token) : List Source :=
  tokens.flatMap Token.sources

variable {exhausted e : Error} {b : Buffer} {out : Output} {bits rest : List Bool} {t : Token}
  {tokens : List Token}

theorem sources_cons (t : Token) (tokens : List Token) :
    sources (t :: tokens) = t.sources ++ sources tokens := rfl

@[simp] theorem Token.length_sources (t : Token) : t.sources.length = t.length := by
  cases t with
  | literals bytes => exact List.length_map _
  | copy shape distance => exact List.length_replicate

theorem length_sources (tokens : List Token) :
    (sources tokens).length = total Token.length tokens := by
  induction tokens with
  | nil => rfl
  | cons t tokens ih => rw [sources_cons, List.length_append, Token.length_sources, ih, total_cons]

/-- The sources of a token have its effect on an output. -/
theorem Token.fill_sources (t : Token) (out : Output) :
    out.fill t.sources = ⟨out.remaining - t.length, t.apply out.produced⟩ := by
  cases t with
  | literals bytes => exact Output.fill_literals bytes out
  | copy shape distance =>
      exact (Output.fill_copies distance shape.count out).trans (Output.pushCopies_eq _ _ out)

theorem produced_fill_sources (tokens : List Token) (out : Output) :
    (out.fill (sources tokens)).produced = applyAll tokens out.produced := by
  induction tokens generalizing out with
  | nil => rfl
  | cons t tokens ih =>
      have hfill : out.fill (sources (t :: tokens)) = (out.fill t.sources).fill (sources tokens) :=
        List.foldl_append
      rw [hfill, ih, Token.fill_sources]
      rfl

/-- A token that fits is put into the buffer. -/
theorem stepInto_bits (hv : t.Valid) (hl : t.length ≤ b.position)
    (hb : t.InBuffer b.cells.length b.position) (rest : List Bool) :
    stepInto exhausted b (t.bits ++ rest) = .ok (b.fill t.sources, rest) := by
  refine bind_eq_ok.2 ⟨_, readCommand_bits exhausted hv rest, ?_⟩
  cases t with
  | literals bytes => exact Buffer.literals_byteBits hl rest
  | copy shape distance =>
      let control : Output := ⟨b.position, []⟩
      have hc : control.copy .squash b.cells.length distance shape.count = .ok _ :=
        Output.copy_eq_ok.2 ⟨hl, hb, rfl⟩
      refine map_eq_ok.2 ⟨b.fill (Token.copy shape distance).sources, ?_, rfl⟩
      rw [Buffer.copy_eq (show b.position = control.remaining from rfl) hv.1, hc]
      rfl

/-- What fails for an output fails for its buffer. -/
theorem stepInto_eq_error (hp : b.position = out.remaining)
    (h : step exhausted b.cells.length out bits = .error e) :
    stepInto exhausted b bits = .error e := by
  rcases bind_eq_error.1 h with hc | ⟨⟨command, rest⟩, hc, h⟩
  · exact bind_eq_error.2 (.inl hc)
  · refine bind_eq_error.2 (.inr ⟨_, hc, ?_⟩)
    have hpos := count_pos_of_readCommand hc
    cases command with
    | literals count => exact Buffer.literals_eq_error hp h
    | copy distance count =>
        simp only [Command.run, Command.fill, Command.count] at h hpos ⊢
        rw [Buffer.copy_eq hp hpos]
        cases ho : out.copy .squash b.cells.length distance count with
        | error e' =>
            rw [ho] at h
            cases h
            rfl
        | ok next =>
            rw [ho] at h
            cases h

/-- **A step into a buffer takes the token that a step takes.** -/
theorem exists_token_of_stepInto {next : Buffer}
    (h : stepInto exhausted b bits = .ok (next, rest)) :
    ∃ t : Token, t.Valid ∧ t.length ≤ b.position ∧ next = b.fill t.sources := by
  cases hs : step exhausted b.cells.length ⟨b.position, []⟩ bits with
  | error e =>
      rw [stepInto_eq_error rfl hs] at h
      cases h
  | ok r =>
      obtain ⟨t, hv, rfl, hl, hb, -⟩ := step_eq_ok.1 hs
      rw [stepInto_bits hv hl hb] at h
      exact ⟨t, hv, hl, (Prod.mk.inj (Except.ok.inj h)).1.symm⟩

theorem position_of_stepInto {next : Buffer}
    (h : stepInto exhausted b bits = .ok (next, rest)) : next.position < b.position := by
  obtain ⟨t, hv, hl, rfl⟩ := exists_token_of_stepInto h
  have hpos := hv.length_pos
  rw [Buffer.position_fill, Token.length_sources]
  omega

/-- The tokens of a stream up to the start of the buffer. -/
def expandInto (exhausted : Error) (b : Buffer) (bits : List Bool) :
    Except Error (Buffer × List Bool) :=
  if b.position = 0 then .ok (b, bits)
  else
    match _h : stepInto exhausted b bits with
    | .error e => .error e
    | .ok (next, rest) => expandInto exhausted next rest
termination_by b.position
decreasing_by exact position_of_stepInto _h

theorem expandInto_of_step {next : Buffer} (h0 : b.position ≠ 0)
    (h : stepInto exhausted b bits = .ok (next, rest)) :
    expandInto exhausted b bits = expandInto exhausted next rest := by
  rw [expandInto, if_neg h0]
  split <;> simp_all

theorem expandInto_of_step_error (h0 : b.position ≠ 0)
    (h : stepInto exhausted b bits = .error e) : expandInto exhausted b bits = .error e := by
  rw [expandInto, if_neg h0]
  split <;> simp_all

/-- **Tokens that fill the output are put into the buffer.** -/
theorem expandInto_tokenBits (hv : ∀ t ∈ tokens, t.Valid)
    (ht : total Token.length tokens = b.position) (hb : InBuffer b.cells.length tokens)
    (rest : List Bool) :
    expandInto exhausted b (tokenBits tokens ++ rest) = .ok (b.fill (sources tokens), rest) := by
  induction tokens generalizing b with
  | nil =>
      have h0 : b.position = 0 := ht.symm
      rw [expandInto, if_pos h0]
      rfl
  | cons t tokens ih =>
      rw [List.forall_mem_cons] at hv
      have hpos := hv.1.length_pos
      have htot : t.length + total Token.length tokens = b.position := ht
      have hstep : stepInto exhausted b (tokenBits (t :: tokens) ++ rest)
          = .ok (b.fill t.sources, tokenBits tokens ++ rest) := by
        rw [tokenBits_cons, List.append_assoc]
        exact stepInto_bits hv.1 (by omega) (ht ▸ hb.1) _
      rw [expandInto_of_step (by omega) hstep, sources_cons, Buffer.fill_append]
      refine ih hv.2 ?_ ?_
      · rw [Buffer.position_fill, Token.length_sources]
        omega
      · rw [Buffer.length_fill]
        exact hb.2

/-- What fails for an output fails for its buffer, with the same error. -/
theorem expandInto_eq_error {capacity : Nat} (hc : b.cells.length = capacity)
    (hp : b.position = out.remaining) (h : expand exhausted capacity out bits = .error e) :
    expandInto exhausted b bits = .error e := by
  induction out, bits using expand.induct exhausted capacity generalizing b with
  | case1 out bits h0 =>
      rw [expand, if_pos h0] at h
      cases h
  | case2 out bits h0 e' he =>
      rw [expand_of_step_error h0 he] at h
      subst hc
      rw [expandInto_of_step_error (hp ▸ h0) (stepInto_eq_error hp he), Except.error.inj h]
  | case3 out bits h0 next rest hs ih =>
      rw [expand_of_step h0 hs] at h
      obtain ⟨t, hv, rfl, hl, hb, rfl⟩ := step_eq_ok.1 hs
      subst hc
      rw [expandInto_of_step (hp ▸ h0) (stepInto_bits hv (hp ▸ hl) (hp ▸ hb) rest)]
      refine ih (Buffer.length_fill _ b) ?_ h
      rw [Buffer.position_fill, Token.length_sources, hp]

/-! ## 2. Files in a buffer -/

/-- The output of a packed region in a buffer with the given contents, and the moves that were made
    in it. -/
def expandRegionInto (initial : Nat → UInt8) (capacity : Nat) (region : Bytes) :
    Except Error (Bytes × List Move) :=
  match longsBackward region with
  | size :: seed :: register :: words =>
    if capacity < size.toNat then .error (.malformed (.largerThanBuffer size.toNat capacity))
    else do
      let leftover := region.length % 4
      let exhausted := Error.inputExhausted .squash leftover
      let start := Buffer.start initial capacity size.toNat
      let (b, rest) ← expandInto exhausted start (streamBits register words)
      checkEnd leftover seed register words rest
      .ok (b.cells.take size.toNat, b.moves)
  | _ => .error (.malformed (.noTrailer region.length))

/-- The contents of a squashed hunk, unsquashed in a buffer with the given contents. -/
def unsquashInto (initial : Nat → UInt8) (data : Bytes) : Except Error (Bytes × List Move) := do
  let (capacity, region) ← region data
  expandRegionInto initial capacity region

/-- The moves of tokens. -/
def moves (tokens : List Token) : List Move :=
  movesFrom (total Token.length tokens) (sources tokens)

/-- The output of tokens in a buffer with the given contents. -/
def denoteInto (initial : Nat → UInt8) (capacity : Nat) (tokens : List Token) : Bytes :=
  let size := total Token.length tokens
  ((Buffer.start initial capacity size).fill (sources tokens)).cells.take size

variable {initial : Nat → UInt8} {capacity spare : Nat} {p : Packed} {data : Bytes}

/-- **A region that spells tokens is accepted in every buffer**, which is filled by the tokens. -/
theorem expandRegionInto_of_spells (initial : Nat → UInt8) (h : p.Spells capacity tokens spare) :
    expandRegionInto initial capacity p.bytes
      = .ok (denoteInto initial capacity tokens, moves tokens) := by
  have hexpand : expandInto (.inputExhausted .squash (p.bytes.length % 4))
      (.start initial capacity p.size.toNat) (streamBits p.register p.words)
      = .ok ((Buffer.start initial capacity p.size.toNat).fill (sources tokens),
        List.replicate spare false) := by
    rw [h.bits]
    refine expandInto_tokenBits h.valid h.size ?_ _
    rw [Buffer.length_start]
    exact h.inBuffer
  rw [expandRegionInto, Packed.longsBackward_bytes]
  simp only [Packed.covered]
  rw [if_neg (Nat.not_lt.2 h.fits)]
  refine bind_eq_ok.2 ⟨_, hexpand, bind_eq_ok.2 ⟨(), h.checkEnd, ?_⟩⟩
  rw [denoteInto, moves, h.size, Buffer.moves_fill]
  rfl

/-- A region that is refused is refused in every buffer, with the same error. -/
theorem expandRegionInto_eq_error (initial : Nat → UInt8) {region : Bytes}
    (h : expandRegion capacity region = .error e) :
    expandRegionInto initial capacity region = .error e := by
  unfold expandRegion at h
  unfold expandRegionInto
  generalize longsBackward region = longs at h ⊢
  match longs, h with
  | size :: seed :: register :: words, h =>
      dsimp only at h ⊢
      by_cases hlt : capacity < size.toNat
      · rw [if_pos hlt] at h ⊢
        rw [Except.error.inj h]
      · rw [if_neg hlt] at h ⊢
        rcases bind_eq_error.1 h with hx | ⟨⟨final, rest⟩, hx, h⟩
        · exact bind_eq_error.2 (.inl (expandInto_eq_error (Buffer.length_start ..) rfl hx))
        · obtain ⟨tokens, hv, ht, hb, hbits, rfl⟩ := expand_eq_ok.1 hx
          rw [hbits]
          refine bind_eq_error.2 (.inr ⟨_, expandInto_tokenBits hv ht ?_ rest, ?_⟩)
          · rwa [Buffer.length_start]
          · rcases bind_eq_error.1 h with hend | ⟨u, -, h⟩
            · exact bind_eq_error.2 (.inl hend)
            · cases h
  | [], h | [_], h | [_, _], h => rw [Except.error.inj h]

/-! ## 3. Which moves are made -/

theorem moves_cons (t : Token) (tokens : List Token) :
    moves (t :: tokens)
      = movesFrom (t.length + total Token.length tokens) t.sources ++ moves tokens := by
  rw [moves, sources_cons, movesFrom_append, total_cons, Token.length_sources,
    Nat.add_sub_cancel_left]
  rfl

/-- Moves come from inside of the buffer. -/
theorem source_lt_of_inBuffer (h : InBuffer capacity tokens) :
    ∀ m ∈ moves tokens, m.source < capacity := by
  induction tokens with
  | nil => exact List.forall_mem_nil _
  | cons t tokens ih =>
      rw [moves_cons, List.forall_mem_append]
      refine ⟨fun m hm => ?_, ih h.2⟩
      cases t with
      | literals bytes =>
          rw [Token.sources, movesFrom_literals] at hm
          cases hm
      | copy shape distance =>
          obtain ⟨i, -, rfl⟩ := mem_movesFrom_copies.1 hm
          exact Nat.lt_of_le_of_lt (Nat.add_le_add_right (Nat.sub_le _ i) distance) h.1

/-- **All moves are of produced bytes exactly if each copy names produced bytes**: the first byte of
    a copy is the one that reads farthest. -/
theorem produced_iff (hv : ∀ t ∈ tokens, t.Valid) (produced : Nat) :
    (∀ m ∈ moves tokens, m.Produced (produced + total Token.length tokens)) ↔
      CopiesProduced produced tokens := by
  induction tokens generalizing produced with
  | nil => exact ⟨fun _ => trivial, fun _ => List.forall_mem_nil _⟩
  | cons t tokens ih =>
      rw [List.forall_mem_cons] at hv
      have hpos := hv.1.length_pos
      rw [moves_cons, List.forall_mem_append, total_cons, ← Nat.add_assoc, ih hv.2]
      cases t with
      | literals bytes =>
          rw [Token.sources, movesFrom_literals]
          exact ⟨fun h => h.2, fun h => ⟨List.forall_mem_nil _, h⟩⟩
      | copy shape distance =>
          simp only [Token.length] at hpos ⊢
          constructor
          · intro h
            obtain ⟨hlt, hle⟩ := h.1 _ (mem_movesFrom_copies.2 ⟨0, hpos, rfl⟩)
            simp only at hlt hle
            exact ⟨by omega, by omega, h.2⟩
          · intro h
            obtain ⟨h1, hd, hrest⟩ := h
            refine ⟨fun m hm => ?_, hrest⟩
            obtain ⟨i, hi, rfl⟩ := mem_movesFrom_copies.1 hm
            exact ⟨by simp only; omega, by simp only; omega⟩

/-! ## 4. The output in any buffer -/

theorem denoteInto_zero (h : total Token.length tokens ≤ capacity) :
    denoteInto (fun _ => 0) capacity tokens = denote tokens :=
  (Buffer.take_fill_start (length_sources tokens) h).trans (produced_fill_sources tokens _)

theorem denoteInto_eq_iff (hv : ∀ t ∈ tokens, t.Valid) (hb : InBuffer capacity tokens)
    (h : total Token.length tokens ≤ capacity) :
    (∀ initial, denoteInto initial capacity tokens = denote tokens) ↔ CopiesProduced 0 tokens := by
  have hfill := Buffer.take_fill_eq_iff (length_sources tokens) h (source_lt_of_inBuffer hb)
  rw [produced_fill_sources] at hfill
  rw [← produced_iff hv, Nat.zero_add]
  exact hfill

/-- A file that is refused is refused in every buffer, with the same error. -/
theorem unsquashInto_eq_error (initial : Nat → UInt8) (h : unsquash data = .error e) :
    unsquashInto initial data = .error e := by
  rcases bind_eq_error.1 h with hr | ⟨⟨capacity, packed⟩, hr, h⟩
  · exact bind_eq_error.2 (.inl hr)
  · exact bind_eq_error.2 (.inr ⟨_, hr, expandRegionInto_eq_error initial h⟩)

/-- **In a buffer of zero bytes a file is unsquashed.** -/
theorem unsquashInto_zero (data : Bytes) :
    (unsquashInto (fun _ => 0) data).map Prod.fst = unsquash data := by
  cases h : unsquash data with
  | error e =>
      rw [unsquashInto_eq_error _ h]
      rfl
  | ok out =>
      obtain ⟨⟨capacity, packed⟩, hr, hx⟩ := bind_eq_ok.1 h
      obtain ⟨p, tokens, spare, rfl, hs, rfl⟩ := expandRegion_eq_ok.1 hx
      have hinto : unsquashInto (fun _ => 0) data = .ok _ :=
        bind_eq_ok.2 ⟨_, hr, expandRegionInto_of_spells _ hs⟩
      rw [hinto, denoteInto_zero (hs.size ▸ hs.fits)]
      rfl

/-- **The output of a squashed file holds produced bytes only, or it depends on the buffer.** An
    accepted file is accepted in every buffer, whatever it holds at first, with the same moves, all
    of them from inside of the buffer. All the bytes that they read have been produced exactly if
    each copy has a distance of at least one and at most the number of bytes produced before it, and
    exactly then every buffer gives the same output. -/
theorem produced_of_unsquash {out : Bytes} (h : unsquash data = .ok out) :
    ∃ (capacity : Nat) (p : Packed) (tokens : List Token) (spare : Nat),
      region data = .ok (capacity, p.bytes) ∧ p.Spells capacity tokens spare ∧
      (∀ initial, unsquashInto initial data
        = .ok (denoteInto initial capacity tokens, moves tokens)) ∧
      denoteInto (fun _ => 0) capacity tokens = out ∧
      (∀ m ∈ moves tokens, m.target < out.length ∧ m.source < capacity) ∧
      ((∀ m ∈ moves tokens, m.Produced out.length) ↔ CopiesProduced 0 tokens) ∧
      ((∀ initial, denoteInto initial capacity tokens = out) ↔ CopiesProduced 0 tokens) := by
  obtain ⟨⟨capacity, packed⟩, hr, hx⟩ := bind_eq_ok.1 h
  obtain ⟨p, tokens, spare, rfl, hs, rfl⟩ := expandRegion_eq_ok.1 hx
  have hfits : total Token.length tokens ≤ capacity := hs.size ▸ hs.fits
  have hlen : (denote tokens).length = total Token.length tokens := length_applyAll tokens []
  have hiff := produced_iff hs.valid 0
  rw [Nat.zero_add, ← hlen] at hiff
  refine ⟨capacity, p, tokens, spare, hr, hs, fun initial => ?_, denoteInto_zero hfits,
    fun m hm => ⟨?_, source_lt_of_inBuffer hs.inBuffer m hm⟩, hiff,
    denoteInto_eq_iff hs.valid hs.inBuffer hfits⟩
  · exact bind_eq_ok.2 ⟨_, hr, expandRegionInto_of_spells initial hs⟩
  · rw [hlen]
    exact target_lt (Nat.le_of_eq (length_sources tokens)) m hm

/-- "abracadabra" copies bytes that it has produced, so that what the buffer held does not show. -/
theorem produced_of_unsquash_abracadabra :
    unsquashInto (fun _ => 255) (file 16 20 abracadabra.bytes [])
        = .ok (Bytes.ascii "abracadabra", [⟨10, 3⟩, ⟨9, 2⟩, ⟨8, 1⟩, ⟨7, 0⟩]) ∧
      ∀ m ∈ [Move.mk 10 3, ⟨9, 2⟩, ⟨8, 1⟩, ⟨7, 0⟩], m.Produced 11 := by
  obtain ⟨capacity, p, tokens, spare, hr, hs, hinto, -, -, hmoves, hsame⟩ :=
    produced_of_unsquash unsquash_abracadabra
  have hregion : region (file 16 20 abracadabra.bytes []) = .ok (16, abracadabra.bytes) := by decide
  obtain ⟨rfl, hp⟩ := Prod.mk.inj (Except.ok.inj (hregion.symm.trans hr))
  obtain rfl := Packed.bytes_inj hp
  obtain ⟨rfl, rfl⟩ := spells_abracadabra.unique hs
  rw [hinto, hsame.2 (by decide)]
  exact ⟨rfl, hmoves.2 (by decide)⟩

/-- Two literal bytes, then two copied from behind the output and two copied from where they are
    written. -/
def unproduced : Packed where
  size := 6
  seed := 273158160
  register := 1
  words := [273158160, 1]

/-- They are accepted, and the output shows what the buffer held. -/
theorem unsquash_unproduced :
    unsquash (file 8 20 unproduced.bytes []) = .ok [0, 0, 0, 0, 2, 1] ∧
      unsquashInto (fun _ => 255) (file 8 20 unproduced.bytes [])
        = .ok ([255, 255, 255, 255, 2, 1], [⟨7, 3⟩, ⟨6, 2⟩, ⟨1, 1⟩, ⟨0, 0⟩]) ∧
      ∀ m ∈ [Move.mk 7 3, ⟨6, 2⟩, ⟨1, 1⟩, ⟨0, 0⟩], ¬ m.Produced 6 := by
  have hs : unproduced.Spells 8 [.literals [1, 2], .copy .two 4, .copy .two 0] 23 :=
    ⟨by decide, by decide, by decide, by decide, by decide, by decide, by decide, by decide⟩
  have hr : region (file 8 20 unproduced.bytes []) = .ok (8, unproduced.bytes) := by decide
  refine ⟨(unsquash_file rfl [] _).2 ⟨_, _, hs, by decide⟩, ?_, by decide⟩
  exact bind_eq_ok.2 ⟨_, hr, (expandRegionInto_of_spells _ hs).trans (by decide)⟩

end AmigaBinary.Decrunch.Squash
