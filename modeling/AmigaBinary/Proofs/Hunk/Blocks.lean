import AmigaBinary.Hunk.Write
import AmigaBinary.Proofs.Cursor
import Mathlib.Data.List.Forall2

/-!
# The blocks of a hunk file

What a block holds is read exactly where it is written: the contents of a segment
(`readBody_eq_ok`), a list of relocations and all of them (`readRelocBlock_eq_some`,
`readRelocBlocks_eq_ok`), and a block behind a tag, of which only the type counts (`read_eq_ok`).
The blocks that are read are canonical: whole longwords, and no list without an offset
(`Hunk.Canonical`). So a file of blocks is a list of tags and contents (`readAll_eq_ok`).
-/

namespace AmigaBinary

namespace Hunk

/-! ## 1. Longwords -/

theorem wordsOf_flatMap (words : List UInt32) : wordsOf (words.flatMap Bytes.ofWord32) = words := by
  induction words with
  | nil => rfl
  | cons word words ih =>
      have hcons : wordsOf (Bytes.ofWord32 word ++ words.flatMap Bytes.ofWord32)
          = Bytes.word32 ((word >>> 16).toUInt16 >>> 8).toUInt8 (word >>> 16).toUInt16.toUInt8
              (word.toUInt16 >>> 8).toUInt8 word.toUInt16.toUInt8
            :: wordsOf (words.flatMap Bytes.ofWord32) := rfl
      rw [List.flatMap_cons, hcons, Bytes.word32_ofWord32, ih]

/-- Bytes of whole longwords are those of their words. -/
theorem flatMap_wordsOf {n : Nat} : ∀ {bytes : Bytes}, bytes.length = 4 * n →
    (wordsOf bytes).flatMap Bytes.ofWord32 = bytes ∧ (wordsOf bytes).length = n := by
  induction n with
  | zero =>
      intro bytes h
      obtain rfl := List.length_eq_zero_iff.1 h
      exact ⟨rfl, rfl⟩
  | succ n ih =>
      intro bytes h
      match bytes, h with
      | a :: b :: c :: d :: rest, h =>
          have hr : rest.length = 4 * n := by
            simp only [List.length_cons] at h
            omega
          obtain ⟨hbytes, hlen⟩ := ih hr
          refine ⟨?_, by rw [wordsOf, List.length_cons, hlen]⟩
          rw [wordsOf, List.flatMap_cons, hbytes, Bytes.ofWord32_word32]
          rfl
      | [], h | [_], h | [_, _], h | [_, _, _], h =>
          simp only [List.length_cons, List.length_nil] at h
          omega

theorem length_flatMap_ofWord32 (words : List UInt32) :
    (words.flatMap Bytes.ofWord32).length = 4 * words.length := by
  induction words with
  | nil => rfl
  | cons word words ih =>
      rw [List.flatMap_cons, List.length_append, ih, List.length_cons, Bytes.length_ofWord32]
      omega

/-- A count that fits a word is the number of this word. -/
theorem countWord_toNat (w : UInt32) : countWord w.toNat = Bytes.ofWord32 w := by
  rw [countWord, UInt32.ofNat_toNat]

end Hunk

/-! ## 2. Canonical blocks -/

namespace Bytes

/-- Whole longwords, of which the number fits a word. -/
def Whole (data : Bytes) : Prop :=
  data.length % 4 = 0 ∧ data.length / 4 < 0x100000000

instance (data : Bytes) : Decidable data.Whole :=
  inferInstanceAs (Decidable (_ ∧ _))

theorem padToLong_of_whole {data : Bytes} (h : data.length % 4 = 0) : padToLong data = data := by
  unfold padToLong
  rw [h]
  exact List.append_nil data

end Bytes

/-- A list of relocations with a written form. -/
def RelocBlock.Canonical (block : RelocBlock) : Prop :=
  block.offsets ≠ [] ∧ block.offsets.length < 0x100000000

instance (block : RelocBlock) : Decidable block.Canonical :=
  inferInstanceAs (Decidable (_ ∧ _))

namespace Hunk

/-- The type of a block. -/
def tag : Hunk → UInt32
  | .code _ => codeTag
  | .data _ => dataTag
  | .reloc32 _ => reloc32Tag
  | .finish => finishTag

/-- What stands behind the tag. -/
def contents : Hunk → Bytes
  | .code body | .data body => writeBody body
  | .reloc32 blocks => blocks.flatMap writeRelocBlock ++ Bytes.ofWord32 0
  | .finish => []

/-- A block as it is read. -/
def Canonical : Hunk → Prop
  | .code body | .data body => body.Whole
  | .reloc32 blocks => ∀ block ∈ blocks, block.Canonical
  | .finish => True

instance (hunk : Hunk) : Decidable hunk.Canonical := by
  cases hunk <;> unfold Canonical <;> infer_instance

theorem write_eq (hunk : Hunk) : hunk.write = Bytes.ofWord32 hunk.tag ++ hunk.contents := by
  cases hunk with
  | code body => rfl
  | data body => rfl
  | reloc32 blocks => exact List.append_assoc _ _ _
  | finish => exact (List.append_nil _).symm

/-! ## 3. Reading -/

variable {c next : Cursor}

/-- **The contents of a segment are read where they are written.** -/
theorem readBody_eq_ok {body : Bytes} :
    readBody c = .ok (body, next) ↔ body.Whole ∧ c.Reads (writeBody body) next := by
  unfold readBody
  rw [Cursor.word32_bind_eq_ok]
  constructor
  · rintro ⟨count, d, hc, h⟩
    obtain ⟨hlen, hb⟩ := Cursor.take_eq_ok.1 h
    have hlt := count.toNat_lt
    have hwhole : body.length % 4 = 0 := by omega
    have hcount : body.length / 4 = count.toNat := by omega
    refine ⟨⟨hwhole, by omega⟩, ?_⟩
    unfold writeBody
    dsimp only
    rw [Bytes.padToLong_of_whole hwhole, hcount, countWord_toNat]
    exact hc.trans hb
  · rintro ⟨⟨hwhole, hlt⟩, hr⟩
    unfold writeBody at hr
    dsimp only at hr
    rw [Bytes.padToLong_of_whole hwhole] at hr
    obtain ⟨d, hc, hb⟩ := Cursor.reads_append.1 hr
    refine ⟨UInt32.ofNat (body.length / 4), d, hc, Cursor.take_eq_ok.2 ⟨?_, hb⟩⟩
    rw [UInt32.toNat_ofNat_of_lt' hlt]
    omega

theorem readRelocBlock_eq_none :
    readRelocBlock c = .ok (none, next) ↔ c.Reads (Bytes.ofWord32 0) next := by
  unfold readRelocBlock
  rw [Cursor.word32_bind_eq_ok]
  constructor
  · rintro ⟨count, d, hc, h⟩
    dsimp only at h
    by_cases h0 : count = 0
    · rw [if_pos h0] at h
      obtain ⟨-, rfl⟩ := Prod.mk.inj (Except.ok.inj h)
      rw [← h0]
      exact hc
    · rw [if_neg h0] at h
      obtain ⟨target, d, -, h⟩ := Cursor.word32_bind_eq_ok.1 h
      obtain ⟨⟨offsets, d⟩, -, h⟩ := bind_eq_ok.1 h
      cases h
  · intro hc
    exact ⟨0, next, hc, rfl⟩

theorem readRelocBlock_eq_some {block : RelocBlock} :
    readRelocBlock c = .ok (some block, next) ↔
      block.Canonical ∧ c.Reads (writeRelocBlock block) next := by
  unfold readRelocBlock
  rw [Cursor.word32_bind_eq_ok]
  constructor
  · rintro ⟨count, d, hc, h⟩
    dsimp only at h
    by_cases h0 : count = 0
    · rw [if_pos h0] at h
      cases h
    · rw [if_neg h0] at h
      obtain ⟨target, d, ht, h⟩ := Cursor.word32_bind_eq_ok.1 h
      obtain ⟨⟨offsets, d⟩, ho, h⟩ := bind_eq_ok.1 h
      obtain ⟨hblock, rfl⟩ := Prod.mk.inj (Except.ok.inj h)
      obtain rfl := Option.some.inj hblock
      obtain ⟨hlen, ho⟩ := Cursor.take_eq_ok.1 ho
      obtain ⟨hbytes, hcount⟩ := flatMap_wordsOf hlen
      have hne : wordsOf offsets ≠ [] := by
        intro he
        rw [he] at hcount
        exact h0 (UInt32.toNat_inj.1 hcount.symm)
      refine ⟨⟨hne, by rw [hcount]; exact count.toNat_lt⟩, ?_⟩
      unfold writeRelocBlock
      rw [if_neg hne]
      dsimp only
      rw [hcount, hbytes, countWord_toNat]
      exact (hc.trans ht).trans ho
  · rintro ⟨⟨hne, hlt⟩, hr⟩
    unfold writeRelocBlock at hr
    rw [if_neg hne] at hr
    obtain ⟨d', hr, ho⟩ := Cursor.reads_append.1 hr
    obtain ⟨d, hc, ht⟩ := Cursor.reads_append.1 hr
    have hcount : (UInt32.ofNat block.offsets.length).toNat = block.offsets.length :=
      UInt32.toNat_ofNat_of_lt' hlt
    have h0 : UInt32.ofNat block.offsets.length ≠ 0 := by
      intro he
      rw [he] at hcount
      exact hne (List.length_eq_zero_iff.1 hcount.symm)
    refine ⟨_, d, hc, ?_⟩
    dsimp only
    rw [if_neg h0, Cursor.word32_bind_eq_ok]
    refine ⟨_, d', ht, bind_eq_ok.2 ⟨_, Cursor.take_eq_ok.2 ⟨?_, ho⟩, ?_⟩⟩
    · rw [length_flatMap_ofWord32, hcount]
    · rw [wordsOf_flatMap]

theorem readRelocBlocks_eq_nil :
    readRelocBlocks c = .ok ([], next) ↔ readRelocBlock c = .ok (none, next) := by
  rw [readRelocBlocks]
  split
  · rename_i e he
    rw [he]
    simp
  · rename_i d hd
    rw [hd]
    simp
  · rename_i block d hd
    rw [hd]
    constructor
    · intro h
      split at h <;> cases h
    · intro h
      cases h

theorem readRelocBlocks_eq_cons {block : RelocBlock} {blocks : List RelocBlock} :
    readRelocBlocks c = .ok (block :: blocks, next) ↔
      ∃ d, readRelocBlock c = .ok (some block, d) ∧ readRelocBlocks d = .ok (blocks, next) := by
  rw [readRelocBlocks]
  split
  · rename_i e he
    rw [he]
    simp
  · rename_i d hd
    rw [hd]
    simp
  · rename_i first d hd
    rw [hd]
    constructor
    · intro h
      split at h
      · cases h
      · rename_i blocks' behind hb
        cases h
        exact ⟨d, rfl, hb⟩
    · rintro ⟨d', h, hb⟩
      cases h
      rw [hb]

/-- **The lists of relocations are read where they are written**, up to the zero behind them. -/
theorem readRelocBlocks_eq_ok {blocks : List RelocBlock} :
    readRelocBlocks c = .ok (blocks, next) ↔
      (∀ block ∈ blocks, block.Canonical) ∧
        c.Reads (blocks.flatMap writeRelocBlock ++ Bytes.ofWord32 0) next := by
  induction blocks generalizing c with
  | nil =>
      rw [readRelocBlocks_eq_nil, readRelocBlock_eq_none]
      simp
  | cons block blocks ih =>
      rw [readRelocBlocks_eq_cons, List.flatMap_cons, List.append_assoc, Cursor.reads_append,
        List.forall_mem_cons]
      constructor
      · rintro ⟨d, hb, hbs⟩
        obtain ⟨hcanonical, hr⟩ := readRelocBlock_eq_some.1 hb
        obtain ⟨hall, hrs⟩ := ih.1 hbs
        exact ⟨⟨hcanonical, hall⟩, d, hr, hrs⟩
      · rintro ⟨⟨hcanonical, hall⟩, d, hr, hrs⟩
        exact ⟨d, readRelocBlock_eq_some.2 ⟨hcanonical, hr⟩, ih.2 ⟨hall, hrs⟩⟩

/-- **A block is read behind a tag of its type**, whatever flags the tag has. -/
theorem read_eq_ok {hunk : Hunk} :
    read c = .ok (hunk, next) ↔
      hunk.Canonical ∧ ∃ word, word &&& tagMask = hunk.tag ∧
        c.Reads (Bytes.ofWord32 word ++ hunk.contents) next := by
  unfold read
  rw [Cursor.word32_bind_eq_ok]
  constructor
  · rintro ⟨word, d, hw, h⟩
    dsimp only at h
    by_cases hcode : word &&& tagMask = codeTag
    · rw [if_pos hcode] at h
      obtain ⟨⟨body, d'⟩, hb, h⟩ := bind_eq_ok.1 h
      obtain ⟨rfl, rfl⟩ := Prod.mk.inj (Except.ok.inj h)
      obtain ⟨hwhole, hr⟩ := readBody_eq_ok.1 hb
      exact ⟨hwhole, word, hcode, hw.trans hr⟩
    rw [if_neg hcode] at h
    by_cases hdata : word &&& tagMask = dataTag
    · rw [if_pos hdata] at h
      obtain ⟨⟨body, d'⟩, hb, h⟩ := bind_eq_ok.1 h
      obtain ⟨rfl, rfl⟩ := Prod.mk.inj (Except.ok.inj h)
      obtain ⟨hwhole, hr⟩ := readBody_eq_ok.1 hb
      exact ⟨hwhole, word, hdata, hw.trans hr⟩
    rw [if_neg hdata] at h
    by_cases hreloc : word &&& tagMask = reloc32Tag
    · rw [if_pos hreloc] at h
      obtain ⟨⟨blocks, d'⟩, hb, h⟩ := bind_eq_ok.1 h
      obtain ⟨rfl, rfl⟩ := Prod.mk.inj (Except.ok.inj h)
      obtain ⟨hall, hr⟩ := readRelocBlocks_eq_ok.1 hb
      exact ⟨hall, word, hreloc, hw.trans hr⟩
    rw [if_neg hreloc] at h
    by_cases hfinish : word &&& tagMask = finishTag
    · rw [if_pos hfinish] at h
      obtain ⟨rfl, rfl⟩ := Prod.mk.inj (Except.ok.inj h)
      exact ⟨trivial, word, hfinish, hw.trans (Cursor.reads_nil.2 rfl)⟩
    · rw [if_neg hfinish] at h
      cases h
  · rintro ⟨hc, word, htag, hr⟩
    obtain ⟨d, hw, hr⟩ := Cursor.reads_append.1 hr
    refine ⟨word, d, hw, ?_⟩
    dsimp only
    rw [htag]
    cases hunk with
    | code body => exact bind_eq_ok.2 ⟨_, readBody_eq_ok.2 ⟨hc, hr⟩, rfl⟩
    | data body => exact bind_eq_ok.2 ⟨_, readBody_eq_ok.2 ⟨hc, hr⟩, rfl⟩
    | reloc32 blocks => exact bind_eq_ok.2 ⟨_, readRelocBlocks_eq_ok.2 ⟨hc, hr⟩, rfl⟩
    | finish =>
        rw [Cursor.reads_nil.1 hr]
        rfl

/-! ## 4. Up to the end of the file -/

theorem readAll_eq_nil : readAll c = .ok [] ↔ c.rest = [] := by
  rw [readAll]
  cases hrest : c.rest with
  | nil => exact ⟨fun _ => rfl, fun _ => rfl⟩
  | cons byte rest =>
      rw [if_neg (by simp)]
      constructor
      · intro h
        split at h
        · cases h
        · split at h <;> cases h
      · intro h
        cases h

theorem readAll_eq_cons {hunk : Hunk} {hunks : List Hunk} :
    readAll c = .ok (hunk :: hunks) ↔
      ∃ d, read c = .ok (hunk, d) ∧ readAll d = .ok hunks := by
  rw [readAll]
  by_cases hempty : c.rest.isEmpty
  · rw [if_pos hempty]
    constructor
    · intro h
      cases h
    · rintro ⟨d, hd, -⟩
      have hlen := length_of_read hd
      rw [List.isEmpty_iff.1 hempty] at hlen
      exact absurd hlen (Nat.not_lt_zero _)
  · rw [if_neg hempty]
    split
    · rename_i e he
      rw [he]
      simp
    · rename_i first d hd
      rw [hd]
      constructor
      · intro h
        split at h
        · cases h
        · rename_i hunks' hs
          cases h
          exact ⟨d, rfl, hs⟩
      · rintro ⟨d', h, hs⟩
        cases h
        rw [hs]

/-- A block as it stands in a file: a tag, with its flags, and what is behind it. -/
structure Block where
  tag : UInt32
  contents : Bytes
  deriving DecidableEq, Repr

namespace Block

/-- The bytes of a block. -/
def bytes (block : Block) : Bytes :=
  Bytes.ofWord32 block.tag ++ block.contents

/-- What a block stands for. Its flags do not count. -/
structure Holds (block : Block) (hunk : Hunk) : Prop where
  canonical : hunk.Canonical
  tag : block.tag &&& tagMask = hunk.tag
  contents : block.contents = hunk.contents

end Block

/-- **The blocks of a file are read up to its end**, and no byte is left over. -/
theorem readAll_eq_ok {hunks : List Hunk} :
    readAll c = .ok hunks ↔
      ∃ blocks, List.Forall₂ Block.Holds blocks hunks ∧ c.rest = blocks.flatMap Block.bytes := by
  induction hunks generalizing c with
  | nil =>
      rw [readAll_eq_nil]
      constructor
      · intro h
        exact ⟨[], .nil, h⟩
      · rintro ⟨blocks, hb, hr⟩
        cases hb
        exact hr
  | cons hunk hunks ih =>
      rw [readAll_eq_cons]
      constructor
      · rintro ⟨d, hd, hs⟩
        obtain ⟨hc, word, htag, hr⟩ := read_eq_ok.1 hd
        obtain ⟨blocks, hb, hrest⟩ := ih.1 hs
        refine ⟨⟨word, hunk.contents⟩ :: blocks, .cons ⟨hc, htag, rfl⟩ hb, ?_⟩
        rw [hr.rest, hrest]
        rfl
      · rintro ⟨blocks, hb, hrest⟩
        cases hb with
        | cons hfirst hb =>
            rename_i block blocks
            have hr : c.Reads block.bytes
                ⟨blocks.flatMap Block.bytes, c.position + block.bytes.length⟩ := ⟨hrest, rfl⟩
            rw [Block.bytes, hfirst.contents] at hr
            exact ⟨_, read_eq_ok.2 ⟨hfirst.canonical, block.tag, hfirst.tag, hr⟩,
              ih.2 ⟨blocks, hb, rfl⟩⟩

end Hunk

end AmigaBinary
