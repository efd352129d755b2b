import AmigaBinary.Proofs.Decrunch.Squash.Produced

/-!
# Another size of the buffer

The size of the buffer is in the header, which no checksum covers. It decides only whether there is
room: each token needs some of it (`Token.room`), and a buffer that has the room for all tokens and
for the output is great enough (`Packed.Spells.spells_iff`). What a copy reads behind the output is
zero in every such buffer. So a file is accepted exactly with the sizes from a least one on, always
with the same output and by the same moves (`unsquash_rebuffer`).
-/

namespace AmigaBinary.Decrunch.Squash

/-! ## 1. The room that tokens need -/

/-- The least buffer for a token whose first byte is at `remaining`: the first byte of a copy is the
    one that is read farthest. -/
def Token.room (remaining : Nat) : Token → Nat
  | .literals _ => 0
  | .copy _ distance => remaining - 1 + distance + 1

/-- The least buffer for tokens up to the start of the output. -/
def room : List Token → Nat
  | [] => 0
  | t :: rest => max (t.room (total Token.length (t :: rest))) (room rest)

theorem Token.inBuffer_iff {t : Token} {capacity remaining : Nat} :
    t.InBuffer capacity remaining ↔ t.room remaining ≤ capacity := by
  cases t with
  | literals bytes => exact ⟨fun _ => Nat.zero_le capacity, fun _ => trivial⟩
  | copy shape distance => exact Nat.lt_iff_add_one_le

theorem inBuffer_iff {capacity : Nat} {tokens : List Token} :
    InBuffer capacity tokens ↔ room tokens ≤ capacity := by
  induction tokens with
  | nil => exact ⟨fun _ => Nat.zero_le capacity, fun _ => trivial⟩
  | cons t rest ih => rw [InBuffer, room, Nat.max_le, Token.inBuffer_iff, ih]

/-! ## 2. The buffers that a region is spelled for -/

namespace Packed

variable {p : Packed} {capacity other spare spare' : Nat} {tokens tokens' : List Token}

/-- The least buffer for the output of a region that spells the tokens. -/
def least (p : Packed) (tokens : List Token) : Nat :=
  max p.size.toNat (room tokens)

theorem Spells.least_le (h : p.Spells capacity tokens spare) : p.least tokens ≤ capacity :=
  Nat.max_le.2 ⟨h.fits, inBuffer_iff.1 h.inBuffer⟩

/-- The tokens of a region do not depend on the buffer. -/
theorem Spells.of_least_le (h : p.Spells capacity tokens spare) (hle : p.least tokens ≤ other) :
    p.Spells other tokens spare :=
  { h with
    fits := (Nat.max_le.1 hle).1
    inBuffer := inBuffer_iff.2 (Nat.max_le.1 hle).2 }

/-- **A region that spells tokens for one buffer spells these for every buffer that is great
    enough**, and nothing for any other buffer. -/
theorem Spells.spells_iff (h : p.Spells capacity tokens spare) :
    p.Spells other tokens' spare' ↔
      p.least tokens ≤ other ∧ tokens' = tokens ∧ spare' = spare := by
  constructor
  · intro h'
    -- what is spelled for both buffers is spelled for the greater of them
    have hboth := h.of_least_le (Nat.le_trans h.least_le (Nat.le_max_left capacity other))
    have hboth' := h'.of_least_le (Nat.le_trans h'.least_le (Nat.le_max_right capacity other))
    obtain ⟨rfl, rfl⟩ := hboth.unique hboth'
    exact ⟨h'.least_le, rfl, rfl⟩
  · rintro ⟨hle, rfl, rfl⟩
    exact h.of_least_le hle

end Packed

/-! ## 3. Files with another size of the buffer -/

/-- The file with another size of the buffer, the word behind the magic. -/
def rebuffer (data : Bytes) (buffer : UInt32) : Bytes :=
  data.take 4 ++ (Bytes.ofWord32 buffer ++ data.drop 8)

/-- What is behind the size of the buffer is the same for all sizes. -/
theorem rebuffer_eq_file {data packed behind : Bytes} {buffer buffer' length : UInt32}
    (h : rebuffer data buffer = file buffer' length packed behind) (other : UInt32) :
    buffer' = buffer ∧ rebuffer data other = file other length packed behind := by
  have hmagic : (data.take 4).length = magic.length := by
    have hlen := congrArg List.length h
    have hfour : magic.length = 4 := rfl
    simp only [rebuffer, file, List.length_append, Bytes.length_ofWord32, List.length_take,
      List.length_drop] at hlen ⊢
    omega
  obtain ⟨hfront, hbehind⟩ := List.append_inj h hmagic
  obtain ⟨rfl, hrest⟩ := Bytes.append_ofWord32_inj hbehind
  refine ⟨rfl, ?_⟩
  rw [rebuffer, hfront, hrest]
  rfl

/-- **The size of the buffer cannot change the output.** If a file is accepted, there is a least
    size with which it is. With every size from this one on it is accepted, with the same output and
    by the same moves in a buffer of zero bytes, and with every other one it is rejected. -/
theorem unsquash_rebuffer {data out : Bytes} {buffer : UInt32}
    (h : unsquash (rebuffer data buffer) = .ok out) :
    ∃ least ≤ buffer.toNat, ∃ log : List Move, ∀ other : UInt32,
      (∀ out' : Bytes, unsquash (rebuffer data other) = .ok out' ↔
        least ≤ other.toNat ∧ out' = out) ∧
      (least ≤ other.toNat →
        unsquashInto (fun _ => 0) (rebuffer data other) = .ok (out, log)) := by
  obtain ⟨buffer', length, p, behind, tokens, spare, hfile, hlen, hs, rfl⟩ := unsquash_eq_ok.1 h
  obtain rfl := (rebuffer_eq_file hfile 0).1
  refine ⟨p.least tokens, hs.least_le, moves tokens, fun other => ?_⟩
  rw [(rebuffer_eq_file hfile other).2]
  constructor
  · intro out'
    rw [unsquash_file hlen]
    constructor
    · rintro ⟨tokens', spare', h', rfl⟩
      obtain ⟨hle, rfl, -⟩ := hs.spells_iff.1 h'
      exact ⟨hle, rfl⟩
    · rintro ⟨hle, rfl⟩
      exact ⟨tokens, spare, hs.of_least_le hle, rfl⟩
  · intro hle
    have hother := hs.of_least_le hle
    have hr : region (file other length p.bytes behind) = .ok (other.toNat, p.bytes) :=
      region_eq_ok.2 ⟨other, length, behind, rfl, hlen, rfl⟩
    rw [← denoteInto_zero (hother.size ▸ hother.fits)]
    exact bind_eq_ok.2 ⟨_, hr, expandRegionInto_of_spells _ hother⟩

/-- Two copied bytes come from behind the output, the farthest of them from the eighth byte of the
    buffer. So eight bytes are the least buffer, and one of a thousand bytes gives the same. -/
theorem unsquash_rebuffer_unproduced :
    unsquash (rebuffer (file 8 20 unproduced.bytes []) 1000) = .ok [0, 0, 0, 0, 2, 1] ∧
      ∃ e, unsquash (rebuffer (file 8 20 unproduced.bytes []) 7) = .error e := by
  have hs : unproduced.Spells 8 [.literals [1, 2], .copy .two 4, .copy .two 0] 23 :=
    ⟨by decide, by decide, by decide, by decide, by decide, by decide, by decide, by decide⟩
  have hfile (other : UInt32) : rebuffer (file 8 20 unproduced.bytes []) other
      = file other 20 unproduced.bytes [] := rfl
  have h8 : unsquash (rebuffer (file 8 20 unproduced.bytes []) 8) = .ok [0, 0, 0, 0, 2, 1] :=
    (unsquash_file rfl [] _).2 ⟨_, _, hs, by decide⟩
  obtain ⟨least, hle, log, hall⟩ := unsquash_rebuffer h8
  refine ⟨((hall 1000).1 _).2 ⟨Nat.le_trans hle (by decide), rfl⟩, exists_error fun out ho => ?_⟩
  rw [hfile] at ho
  obtain ⟨tokens, spare, h7, -⟩ := (unsquash_file rfl [] out).1 ho
  exact absurd (hs.spells_iff.1 h7).1 (by decide)

end AmigaBinary.Decrunch.Squash
