import AmigaBinary.Proofs.Decrunch.Squash.Acceptance

/-!
# A changed size

The size of the output is the one word of a region that the checksum does not cover. Its value is
held only by the bits around it: 13 spare zero bits spell a literal zero byte, so a greater size is
accepted if spare bits are left for it, and a smaller one if the last tokens are literal zero bytes
that pass for spare bits. No other size is (`unsquash_resize`), because two lists of tokens with the
same bits go on as each other (`Packed.Spells.longer`).
-/

namespace AmigaBinary.Decrunch.Squash

/-! ## 1. Literal zero bytes behind tokens -/

theorem total_zeroBytes (count : Nat) :
    total Token.length (List.replicate count zeroByte) = count := by
  induction count with
  | zero => rfl
  | succ count ih =>
      rw [List.replicate_succ, total_cons, ih]
      exact Nat.add_comm 1 count

/-- Literal zero bytes at the end of the stream are at the start of the output. -/
theorem denote_zeroBytes (tokens : List Token) (count : Nat) :
    denote (tokens ++ List.replicate count zeroByte)
      = List.replicate count 0 ++ denote tokens := by
  rw [denote, applyAll_append, ← denote]
  generalize denote tokens = out
  induction count generalizing out with
  | zero => rfl
  | succ count ih =>
      show applyAll (List.replicate count zeroByte) (0 :: out) = _
      rw [ih, List.replicate_succ', List.append_assoc]
      rfl

theorem valid_zeroBytes (count : Nat) : ∀ t ∈ List.replicate count zeroByte, t.Valid := by
  intro t ht
  rw [List.eq_of_mem_replicate ht]
  decide

/-- Without the tokens at the end the others are nearer to the start of the output, so they still
    copy from inside of the buffer. -/
theorem InBuffer.of_append {capacity : Nat} {front back : List Token}
    (h : InBuffer capacity (front ++ back)) : InBuffer capacity front := by
  induction front with
  | nil => trivial
  | cons t front ih =>
      obtain ⟨ht, hrest⟩ := h
      have hle : total Token.length (t :: front) ≤ total Token.length (t :: (front ++ back)) := by
        rw [total_cons, total_cons, total_append]
        omega
      refine ⟨?_, ih hrest⟩
      cases t with
      | literals bytes => trivial
      | copy shape distance =>
          exact Nat.lt_of_le_of_lt (Nat.add_le_add_right (Nat.sub_le_sub_right hle 1) distance) ht

/-! ## 2. Two sizes of one stream -/

namespace Packed

variable {p q : Packed} {capacity spare spare' : Nat} {tokens tokens' : List Token}

/-- **Of two regions with the same bits, the longer one has literal zero bytes more**, spelled by
    spare bits of the shorter one. -/
theorem Spells.longer (h : p.Spells capacity tokens spare) (h' : q.Spells capacity tokens' spare')
    (hr : q.register = p.register) (hw : q.words = p.words)
    (hle : p.size.toNat ≤ q.size.toNat) :
    ∃ more, tokens' = tokens ++ List.replicate more zeroByte ∧ spare = 13 * more + spare' ∧
      q.size.toNat = p.size.toNat + more := by
  have hbits := h.bits.symm.trans (hr ▸ hw ▸ h'.bits)
  obtain ⟨extra, rfl, hspare⟩ := tokens_of_longer h.valid h'.valid
    (by rw [h.size, h'.size]; exact hle) hbits
  have hv : ∀ t ∈ extra, t.Valid := fun t ht => h'.valid t (List.mem_append_right _ ht)
  have hzero : extra = List.replicate extra.length zeroByte := by
    refine eq_zeroBytes hv fun bit hb => ?_
    have : bit ∈ List.replicate spare false := by
      rw [hspare]
      exact List.mem_append_left _ hb
    exact List.eq_of_mem_replicate this
  have hlen := congrArg List.length hspare
  have hsize := h'.size
  rw [hzero, tokenBits_zeroBytes] at hlen
  rw [hzero, total_append, total_zeroBytes, h.size] at hsize
  simp only [List.length_append, List.length_replicate] at hlen
  exact ⟨extra.length, by rw [← hzero], hlen, hsize.symm⟩

/-- A region spells one list of tokens only. -/
theorem Spells.unique (h : p.Spells capacity tokens spare)
    (h' : p.Spells capacity tokens' spare') : tokens' = tokens ∧ spare' = spare := by
  obtain ⟨more, rfl, hs, hm⟩ := h.longer h' rfl rfl (Nat.le_refl _)
  obtain rfl : more = 0 := by omega
  exact ⟨List.append_nil _, by omega⟩

/-- So many zero bytes more are spelled by spare bits and have room in the buffer. -/
def CanGrow (p : Packed) (capacity : Nat) (tokens : List Token) (spare more : Nat) : Prop :=
  13 * more ≤ spare ∧ p.size.toNat + more ≤ capacity ∧
    InBuffer capacity (tokens ++ List.replicate more zeroByte)

/-- So many of the last tokens are literal zero bytes that pass for spare bits. -/
def CanShrink (tokens : List Token) (spare fewer : Nat) : Prop :=
  13 * fewer + spare < 32 ∧ ∃ front, tokens = front ++ List.replicate fewer zeroByte

theorem Spells.grow (h : p.Spells capacity tokens spare) {more : Nat}
    (hg : p.CanGrow capacity tokens spare more) (hr : q.register = p.register)
    (hw : q.words = p.words) (hc : q.seed = p.seed) (hs : q.size.toNat = p.size.toNat + more) :
    q.Spells capacity (tokens ++ List.replicate more zeroByte) (spare - 13 * more) where
  valid := by
    intro t ht
    rcases List.mem_append.1 ht with ht | ht
    · exact h.valid t ht
    · exact valid_zeroBytes more t ht
  size := by rw [total_append, h.size, total_zeroBytes, hs]
  fits := by
    rw [hs]
    exact hg.2.1
  inBuffer := hg.2.2
  bits := by
    have hspare : 13 * more + (spare - 13 * more) = spare := Nat.add_sub_of_le hg.1
    rw [hr, hw, h.bits, tokenBits_append, tokenBits_zeroBytes, List.append_assoc,
      List.replicate_append_replicate, hspare]
  short := Nat.lt_of_le_of_lt (Nat.sub_le ..) h.short
  started := by
    rw [hr, hw]
    exact h.started
  balanced := by
    rw [covered, hc, hr, hw]
    exact h.balanced

theorem Spells.shrink {front : List Token} {fewer : Nat}
    (h : p.Spells capacity (front ++ List.replicate fewer zeroByte) spare)
    (hspare : 13 * fewer + spare < 32) (hr : q.register = p.register) (hw : q.words = p.words)
    (hc : q.seed = p.seed) (hs : p.size.toNat = q.size.toNat + fewer) :
    q.Spells capacity front (13 * fewer + spare) where
  valid t ht := h.valid t (List.mem_append_left _ ht)
  size := by
    have hsize := h.size
    rw [total_append, total_zeroBytes] at hsize
    omega
  fits := by
    have hfits := h.fits
    omega
  inBuffer := h.inBuffer.of_append
  bits := by
    rw [hr, hw, h.bits, tokenBits_append, tokenBits_zeroBytes, List.append_assoc,
      List.replicate_append_replicate]
  short := hspare
  started := by
    rw [hr, hw]
    exact h.started
  balanced := by
    rw [covered, hc, hr, hw]
    exact h.balanced

end Packed

/-! ## 3. Files with another size -/

/-- The file with another size, the last word of its region of `length` bytes. -/
def resize (length : Nat) (data : Bytes) (size : UInt32) : Bytes :=
  data.take (8 + length) ++ (Bytes.ofWord32 size ++ data.drop (12 + length))

theorem resize_file {buffer length : UInt32} (p : Packed) (behind : Bytes) (size : UInt32) :
    resize p.bytes.length (file buffer length p.bytes behind) size
      = file buffer length ({ p with size := size } : Packed).bytes behind := by
  have hhead : (magic ++ (Bytes.ofWord32 buffer ++ Bytes.ofWord32 length)).length = 12 := rfl
  have hfile (s : UInt32) : file buffer length ({ p with size := s } : Packed).bytes behind
      = (magic ++ (Bytes.ofWord32 buffer ++ Bytes.ofWord32 length) ++ writeBackward p.covered)
        ++ (Bytes.ofWord32 s ++ behind) := by
    rw [file, Packed.bytes_eq]
    simp only [List.append_assoc]
    rfl
  have hcov := p.length_bytes_covered
  have hdata := hfile p.size
  rw [resize, hdata, hfile size, List.take_left' (by rw [List.length_append, hhead, hcov]; omega)]
  congr 2
  rw [← List.append_assoc, List.drop_left']
  rw [List.length_append, List.length_append, hhead, hcov, Bytes.length_ofWord32]
  omega

/-! ## 4. Which sizes are accepted -/

namespace Packed

variable {p : Packed} {capacity spare : Nat} {tokens : List Token}

/-- What the stream spells for another size. -/
theorem Spells.resized_iff (h : p.Spells capacity tokens spare) (size : UInt32) (out : Bytes) :
    (∃ tokens' spare', ({ p with size := size } : Packed).Spells capacity tokens' spare' ∧
        out = denote tokens') ↔
      (∃ more, size.toNat = p.size.toNat + more ∧ p.CanGrow capacity tokens spare more ∧
        out = List.replicate more 0 ++ denote tokens) ∨
      ∃ fewer, p.size.toNat = size.toNat + fewer ∧ CanShrink tokens spare fewer ∧
        denote tokens = List.replicate fewer 0 ++ out := by
  constructor
  · rintro ⟨tokens', spare', h', rfl⟩
    rcases Nat.le_total p.size.toNat size.toNat with hle | hle
    · obtain ⟨more, rfl, hspare, hs⟩ := h.longer h' rfl rfl hle
      refine .inl ⟨more, hs, ⟨by omega, ?_, h'.inBuffer⟩, denote_zeroBytes tokens more⟩
      rw [← hs]
      exact h'.fits
    · obtain ⟨fewer, rfl, hspare, hs⟩ := h'.longer h rfl rfl hle
      refine .inr ⟨fewer, hs, ⟨?_, tokens', rfl⟩, denote_zeroBytes tokens' fewer⟩
      rw [← hspare]
      exact h'.short
  · rintro (⟨more, hs, hg, rfl⟩ | ⟨fewer, hs, ⟨hspare, front, rfl⟩, hout⟩)
    · exact ⟨_, _, h.grow hg rfl rfl rfl hs, (denote_zeroBytes tokens more).symm⟩
    · rw [denote_zeroBytes] at hout
      exact ⟨front, _, h.shrink hspare rfl rfl rfl hs, (List.append_cancel_left hout).symm⟩

/-- If some zero bytes more are accepted, one more is. -/
theorem CanGrow.one {more : Nat} (h : p.CanGrow capacity tokens spare more) (h0 : more ≠ 0) :
    p.CanGrow capacity tokens spare 1 := by
  obtain ⟨hspare, hfits, hin⟩ := h
  refine ⟨by omega, by omega, ?_⟩
  have hsplit : more = 1 + (more - 1) := by omega
  rw [hsplit, ← List.replicate_append_replicate, ← List.append_assoc] at hin
  exact hin.of_append

/-- If some zero bytes fewer are accepted, one fewer is. -/
theorem CanShrink.one {fewer : Nat} (h : CanShrink tokens spare fewer) (h0 : fewer ≠ 0) :
    CanShrink tokens spare 1 := by
  obtain ⟨hspare, front, rfl⟩ := h
  refine ⟨by omega, front ++ List.replicate (fewer - 1) zeroByte, ?_⟩
  rw [List.append_assoc, List.replicate_append_replicate, Nat.sub_add_cancel (by omega)]

end Packed

section

variable {buffer length : UInt32} {p : Packed} {tokens : List Token} {spare : Nat}

/-- Which sizes are accepted in the place of the one of the file, and with which output. -/
theorem unsquash_resize_eq_ok (hs : p.Spells buffer.toNat tokens spare)
    (hlen : p.bytes.length = length.toNat) (behind : Bytes) (size : UInt32) (out : Bytes) :
    unsquash (resize p.bytes.length (file buffer length p.bytes behind) size) = .ok out ↔
      (∃ more, size.toNat = p.size.toNat + more ∧ p.CanGrow buffer.toNat tokens spare more ∧
        out = List.replicate more 0 ++ denote tokens) ∨
      ∃ fewer, p.size.toNat = size.toNat + fewer ∧ Packed.CanShrink tokens spare fewer ∧
        denote tokens = List.replicate fewer 0 ++ out := by
  have hlen' : ({ p with size := size } : Packed).bytes.length = length.toNat := by
    rw [← hlen, Packed.length_bytes, Packed.length_bytes]
  rw [resize_file, unsquash_file hlen', hs.resized_iff]

/-- The size of the file is the only one exactly if it can neither grow nor shrink by one. -/
theorem only_size_iff (hs : p.Spells buffer.toNat tokens spare)
    (hlen : p.bytes.length = length.toNat) (behind : Bytes) :
    (∀ size out, unsquash (resize p.bytes.length (file buffer length p.bytes behind) size)
        = .ok out → size = p.size) ↔
      ¬ p.CanGrow buffer.toNat tokens spare 1 ∧ ¬ Packed.CanShrink tokens spare 1 := by
  constructor
  · intro honly
    constructor
    · intro hg
      have hsize : (UInt32.ofNat (p.size.toNat + 1)).toNat = p.size.toNat + 1 :=
        UInt32.toNat_ofNat_of_lt' (Nat.lt_of_le_of_lt hg.2.1 buffer.toNat_lt)
      have heq := honly _ _ ((unsquash_resize_eq_ok hs hlen behind _ _).2
        (.inl ⟨1, hsize, hg, rfl⟩))
      rw [heq] at hsize
      omega
    · rintro ⟨hspare, front, rfl⟩
      have htotal := hs.size
      rw [total_append, total_zeroBytes] at htotal
      have hsize : (UInt32.ofNat (total Token.length front)).toNat = total Token.length front :=
        UInt32.toNat_ofNat_of_lt' (Nat.lt_of_le_of_lt (by omega) p.size.toNat_lt)
      have heq := honly _ _ ((unsquash_resize_eq_ok hs hlen behind _ _).2
        (.inr ⟨1, by rw [hsize, htotal], ⟨hspare, front, rfl⟩, denote_zeroBytes front 1⟩))
      rw [heq] at hsize
      omega
  · rintro ⟨hgrow, hshrink⟩ size out ho
    by_contra hne
    rcases (unsquash_resize_eq_ok hs hlen behind size out).1 ho with
      ⟨more, hsize, hg, -⟩ | ⟨fewer, hsize, hf, -⟩
    · exact hgrow (hg.one fun h0 => hne (UInt32.toNat_inj.1 (by omega)))
    · exact hshrink (hf.one fun h0 => hne (UInt32.toNat_inj.1 (by omega)))

end

/-- **The sizes that are accepted.** Let a file be accepted. With another size it is accepted
    exactly if the spare bits spell the zero bytes that are more, or the last tokens are the zero
    bytes that are fewer, and these bytes at its start are all by which the output changes. So every
    other size is rejected exactly if neither can be done with one zero byte. -/
theorem unsquash_resize {data out : Bytes} (h : unsquash data = .ok out) :
    ∃ (capacity : Nat) (p : Packed) (tokens : List Token) (spare : Nat),
      region data = .ok (capacity, p.bytes) ∧ p.Spells capacity tokens spare ∧
      out = denote tokens ∧
      (∀ (size : UInt32) (out' : Bytes), unsquash (resize p.bytes.length data size) = .ok out' ↔
        (∃ more, size.toNat = p.size.toNat + more ∧ p.CanGrow capacity tokens spare more ∧
          out' = List.replicate more 0 ++ out) ∨
        ∃ fewer, p.size.toNat = size.toNat + fewer ∧ Packed.CanShrink tokens spare fewer ∧
          out = List.replicate fewer 0 ++ out') ∧
      ((∀ size : UInt32, size ≠ p.size →
          ∃ e, unsquash (resize p.bytes.length data size) = .error e) ↔
        ¬ p.CanGrow capacity tokens spare 1 ∧ ¬ Packed.CanShrink tokens spare 1) := by
  obtain ⟨buffer, length, p, behind, tokens, spare, rfl, hlen, hs, rfl⟩ := unsquash_eq_ok.1 h
  have hr : region (file buffer length p.bytes behind) = .ok (buffer.toNat, p.bytes) :=
    region_eq_ok.2 ⟨buffer, length, behind, rfl, hlen, rfl⟩
  refine ⟨buffer.toNat, p, tokens, spare, hr, hs, rfl, unsquash_resize_eq_ok hs hlen behind, ?_⟩
  rw [← only_size_iff hs hlen behind]
  constructor
  · intro hreject size out' ho
    by_contra hne
    obtain ⟨e, he⟩ := hreject size hne
    rw [ho] at he
    cases he
  · intro honly size hne
    exact exists_error fun out' ho => hne (honly size out' ho)

/-- The packed "abracadabra" has neither spare bits nor zero bytes, so its size is protected. -/
theorem unsquash_resize_abracadabra :
    (∃ e, unsquash (resize 20 (file 16 20 abracadabra.bytes []) 10) = .error e) ∧
      ∃ e, unsquash (resize 20 (file 16 20 abracadabra.bytes []) 12) = .error e := by
  obtain ⟨capacity, p, tokens, spare, hr, hs, -, -, hiff⟩ := unsquash_resize unsquash_abracadabra
  have hregion : region (file 16 20 abracadabra.bytes []) = .ok (16, abracadabra.bytes) := by decide
  obtain ⟨rfl, hp⟩ := Prod.mk.inj (Except.ok.inj (hregion.symm.trans hr))
  obtain rfl := Packed.bytes_inj hp
  obtain ⟨rfl, rfl⟩ := spells_abracadabra.unique hs
  have hreject := hiff.2 ⟨?_, ?_⟩
  · exact ⟨hreject 10 (by decide), hreject 12 (by decide)⟩
  · rintro ⟨hspare, -, -⟩
    exact absurd hspare (by decide)
  · rintro ⟨-, front, hfront⟩
    have hlast := congrArg List.getLast? hfront
    rw [List.replicate_one, List.getLast?_concat] at hlast
    exact absurd hlast (by decide)

/-- "AMOS" in one token with 27 spare bits. -/
def amos : Packed where
  size := 4
  seed := 1449023817
  register := 1
  words := [1449023832, 16]

/-- One flipped bit of its size is not detected: a zero byte appears in front. -/
theorem resize_amos_undetected :
    unsquash (file 8 20 amos.bytes []) = .ok (Bytes.ascii "AMOS") ∧
      unsquash (resize 20 (file 8 20 amos.bytes []) (4 ^^^ 1))
        = .ok (0 :: Bytes.ascii "AMOS") := by
  have hs : amos.Spells 8 [.literals (Bytes.ascii "SOMA")] 27 :=
    ⟨by decide, by decide, by decide, by decide, by decide, by decide, by decide, by decide⟩
  have hs' : ({ amos with size := 4 ^^^ 1 } : Packed).Spells 8
      [.literals (Bytes.ascii "SOMA"), zeroByte] 14 :=
    hs.grow (show amos.CanGrow 8 _ 27 1 from ⟨by decide, by decide, by decide⟩) rfl rfl rfl rfl
  have hresize : resize 20 (file 8 20 amos.bytes []) (4 ^^^ 1)
      = file 8 20 ({ amos with size := 4 ^^^ 1 } : Packed).bytes [] := resize_file amos [] _
  rw [hresize]
  exact ⟨(unsquash_file rfl [] _).2 ⟨_, _, hs, by decide⟩,
    (unsquash_file rfl [] _).2 ⟨_, _, hs', by decide⟩⟩

end AmigaBinary.Decrunch.Squash
