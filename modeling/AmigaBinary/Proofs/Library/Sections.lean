import AmigaBinary.Proofs.Library.CodeBlocks
import AmigaBinary.Proofs.Library.TokenTable
import AmigaBinary.Total
import Mathlib.Data.List.Induction

/-!
# The sections of a library

The header of a library gives the lengths of four sections, which lie one behind the other
(`readSections_eq_ok`). The first one counts the words of each code block, and the third one is
these blocks: they are read exactly if they fill it (`exists_readCode_iff`), and then no byte of it
is lost, taken twice or taken from elsewhere (`codeBlocks_tile`).
-/

namespace AmigaBinary.Library

variable {data : Bytes} {s : Sections}

/-! ## 1. Where the sections lie -/

/-- The sections lie in the data one behind the other. The first one starts behind the header and
    the marker, and each is as long as its longword in the header says. -/
structure Sections.LieIn (s : Sections) (data : Bytes) : Prop where
  table : s.table = if hasMarker data then 22 else 18
  tokens : ∃ w, Bytes.readWord32 data 0 = .ok w ∧ s.tokens = s.table + w.toNat
  code : ∃ w, Bytes.readWord32 data 4 = .ok w ∧ s.code = s.tokens + w.toNat
  title : ∃ w, Bytes.readWord32 data 8 = .ok w ∧ s.title = s.code + w.toNat
  finish : ∃ w, Bytes.readWord32 data 12 = .ok w ∧ s.finish = s.title + w.toNat
  inside : s.finish ≤ data.length

/-- **The sections are read exactly if they lie in the data.** -/
theorem readSections_eq_ok : readSections data = .ok s ↔ s.LieIn data := by
  have hstart : (if hasMarker data = true then headerLength + marker.length else headerLength)
      = if hasMarker data = true then 22 else 18 := by
    split <;> rfl
  unfold readSections
  dsimp only
  rw [hstart]
  generalize hfirst : (if hasMarker data = true then 22 else 18) = start
  constructor
  · intro h
    obtain ⟨table, htable, h⟩ := bind_eq_ok.1 h
    obtain ⟨tokens, htokens, h⟩ := bind_eq_ok.1 h
    obtain ⟨code, hcode, h⟩ := bind_eq_ok.1 h
    obtain ⟨title, htitle, h⟩ := bind_eq_ok.1 h
    split at h
    · cases h
    · rename_i hinside
      obtain rfl := Except.ok.inj h
      exact ⟨hfirst.symm, ⟨table, htable, rfl⟩, ⟨tokens, htokens, rfl⟩, ⟨code, hcode, rfl⟩,
        ⟨title, htitle, rfl⟩, Nat.le_of_not_lt hinside⟩
  · intro ⟨hs, ⟨table, htable, htk⟩, ⟨tokens, htokens, hcd⟩, ⟨code, hcode, htt⟩,
      ⟨title, htitle, hfin⟩, hinside⟩
    refine bind_eq_ok.2 ⟨table, htable, bind_eq_ok.2 ⟨tokens, htokens,
      bind_eq_ok.2 ⟨code, hcode, bind_eq_ok.2 ⟨title, htitle, ?_⟩⟩⟩⟩
    rw [← hfirst, ← hs, ← htk, ← hcd, ← htt, ← hfin]
    exact if_neg (Nat.not_lt_of_le hinside)

namespace Sections.LieIn

/-- No section starts in front of the one before it, and the first one not in the header. -/
theorem ordered (h : s.LieIn data) :
    18 ≤ s.table ∧ s.table ≤ s.tokens ∧ s.tokens ≤ s.code ∧ s.code ≤ s.title ∧
      s.title ≤ s.finish := by
  obtain ⟨htable, ⟨_, -, htokens⟩, ⟨_, -, hcode⟩, ⟨_, -, htitle⟩, ⟨_, -, hfinish⟩, -⟩ := h
  split at htable <;> omega

/-- Data has only one division into sections. -/
theorem unique {s' : Sections} (h : s.LieIn data) (h' : s'.LieIn data) : s = s' :=
  Except.ok.inj ((readSections_eq_ok.2 h).symm.trans (readSections_eq_ok.2 h'))

end Sections.LieIn

theorem between_eq (start finish : Nat) :
    between data start finish = (data.take finish).drop start :=
  List.drop_take.symm

/-! ## 2. The table of lengths -/

theorem length_wordsOf (bytes : Bytes) : (wordsOf bytes).length = bytes.length / 2 := by
  induction bytes using List.twoStepInduction with
  | nil | singleton => simp [wordsOf]
  | cons_cons a b rest ih _ =>
      rw [wordsOf, List.length_cons, ih, List.length_cons, List.length_cons]
      omega

/-- The words of a byte string stand at its even offsets. -/
theorem drop_of_getElem?_wordsOf {bytes : Bytes} {i : Nat} {w : UInt16}
    (h : (wordsOf bytes)[i]? = some w) :
    ∃ rest, bytes.drop (2 * i) = Bytes.ofWord16 w ++ rest := by
  induction bytes using List.twoStepInduction generalizing i with
  | nil | singleton => cases h
  | cons_cons a b rest ih _ =>
      rw [wordsOf] at h
      cases i with
      | zero =>
          obtain rfl := Option.some.inj h
          exact ⟨rest, by rw [Bytes.ofWord16_word16]; rfl⟩
      | succ i => exact ih h

/-- **The words of the table stand in the data** one behind the other. -/
theorem readWord16_of_getElem?_wordsOf {start finish i : Nat} {w : UInt16}
    (h : (wordsOf (between data start finish))[i]? = some w) :
    Bytes.readWord16 data (start + 2 * i) = .ok w := by
  obtain ⟨rest, hd⟩ := drop_of_getElem?_wordsOf h
  rw [between, List.drop_take, List.drop_drop] at hd
  refine Bytes.readWord16_eq_ok.2 ⟨rest ++ (data.drop (start + 2 * i)).drop
    (finish - start - 2 * i), ?_⟩
  rw [← List.append_assoc, ← hd, List.take_append_drop]

/-- The lengths of the code blocks, in words. -/
def blockLengths (data : Bytes) (s : Sections) : List UInt16 :=
  wordsOf (between data s.table s.tokens)

/-- The length of all code blocks, in bytes. -/
def blockTotal (data : Bytes) (s : Sections) : Nat :=
  total (fun words => 2 * words.toNat) (blockLengths data s)

theorem length_blockLengths (h : s.LieIn data) :
    (blockLengths data s).length = (s.tokens - s.table) / 2 := by
  have hordered := h.ordered
  have hinside := h.inside
  rw [blockLengths, length_wordsOf, between_eq, List.length_drop, List.length_take_of_le (by omega)]

/-! ## 3. Reading the blocks -/

theorem total_of_counts {counts : List UInt16} {blocks : List Bytes}
    (h : List.Forall₂ (fun count block => block.length = 2 * count.toNat) counts blocks) :
    blocks.flatten.length = total (fun count => 2 * count.toNat) counts := by
  induction h with
  | nil => rfl
  | cons hlen _ ih => rw [List.flatten_cons, List.length_append, hlen, ih, total_cons]

/-- Blocks are read as long as there is data for them. -/
theorem readBlocks_of_le {counts : List UInt16} {c : Cursor}
    (h : total (fun count => 2 * count.toNat) counts ≤ c.rest.length) :
    ∃ blocks next, readBlocks counts c = .ok (blocks, next) := by
  induction counts generalizing c with
  | nil => exact ⟨_, _, rfl⟩
  | cons count counts ih =>
      rw [total_cons] at h
      have htake := @Cursor.take_of_le c (2 * count.toNat) (by omega)
      obtain ⟨blocks, next, hblocks⟩ := @ih ⟨c.rest.drop (2 * count.toNat), _⟩
        (by rw [List.length_drop]; omega)
      exact ⟨_, _, bind_eq_ok.2 ⟨_, htake, bind_eq_ok.2 ⟨_, hblocks, rfl⟩⟩⟩

/-- **Blocks that reach behind the data are refused** where the first one of them does. -/
theorem readBlocks_of_lt {counts : List UInt16} {c : Cursor}
    (h : c.rest.length < total (fun count => 2 * count.toNat) counts) :
    ∃ offset length, readBlocks counts c
        = .error (.truncated offset length (c.position + c.rest.length - offset)) ∧
      c.position ≤ offset ∧ offset ≤ c.position + c.rest.length ∧
      c.position + c.rest.length < offset + length := by
  induction counts generalizing c with
  | nil => exact absurd h (Nat.not_lt_zero _)
  | cons count counts ih =>
      rw [total_cons] at h
      by_cases hfits : 2 * count.toNat ≤ c.rest.length
      · have htake := Cursor.take_of_le hfits
        obtain ⟨offset, length, he, hfrom, hto, hbehind⟩ :=
          @ih ⟨c.rest.drop (2 * count.toNat), c.position + 2 * count.toNat⟩
            (by rw [List.length_drop]; omega)
        dsimp only at he hfrom hto hbehind
        rw [List.length_drop] at he hto hbehind
        have hend : c.position + 2 * count.toNat + (c.rest.length - 2 * count.toNat)
            = c.position + c.rest.length := by omega
        rw [hend] at he hto hbehind
        refine ⟨offset, length, ?_, by omega, hto, hbehind⟩
        simp only [readBlocks, htake, bind, Except.bind, he]
      · have htake : c.take (2 * count.toNat)
            = .error (.truncated c.position (2 * count.toNat) c.rest.length) := if_neg hfits
        refine ⟨c.position, 2 * count.toNat, ?_, Nat.le_refl _, by omega, by omega⟩
        rw [Nat.add_sub_cancel_left]
        simp only [readBlocks, htake, bind, Except.bind]

/-- The place behind the blocks that are read is behind all of their lengths. -/
theorem position_of_readBlocks {blocks : List Bytes} {next : Cursor}
    (h : readBlocks (blockLengths data s) ⟨data.drop s.code, s.code⟩ = .ok (blocks, next)) :
    next.position = s.code + blockTotal data s := by
  obtain ⟨hblocks, hr⟩ := readBlocks_eq_ok.1 h
  rw [hr.position, total_of_counts hblocks]
  rfl

/-- **The blocks are read exactly if they fill their section.** -/
theorem exists_readCode_iff (h : s.LieIn data) :
    (∃ blocks, readCode data s = .ok blocks) ↔ s.code + blockTotal data s = s.title := by
  have hordered := h.ordered
  have hinside := h.inside
  constructor
  · rintro ⟨blocks, hblocks⟩
    obtain ⟨next, hread, hposition⟩ := readBlocks_of_readCode hblocks
    rw [← position_of_readBlocks hread, hposition]
  · intro hfill
    obtain ⟨blocks, next, hread⟩ :=
      @readBlocks_of_le (blockLengths data s) ⟨data.drop s.code, s.code⟩ (by
        show blockTotal data s ≤ _
        rw [List.length_drop]
        omega)
    exact ⟨blocks, bind_eq_ok.2 ⟨_, hread, if_pos ((position_of_readBlocks hread).trans hfill)⟩⟩

/-- Blocks that do not fill their section are refused: the error says where they end, or that the
    data ends inside of one. -/
theorem readCode_of_ne (h : s.LieIn data) (hne : s.code + blockTotal data s ≠ s.title) :
    readCode data s = .error (.badSection (.blockTable (s.code + blockTotal data s) s.title)) ∨
      data.length < s.code + blockTotal data s ∧
        ∃ offset length, readCode data s
          = .error (.truncated offset length (data.length - offset)) := by
  have hordered := h.ordered
  have hinside := h.inside
  have hrest : s.code + (data.drop s.code).length = data.length := by
    rw [List.length_drop]
    omega
  by_cases hfits : blockTotal data s ≤ (data.drop s.code).length
  · left
    obtain ⟨blocks, next, hread⟩ :=
      @readBlocks_of_le (blockLengths data s) ⟨data.drop s.code, s.code⟩ hfits
    have hposition := position_of_readBlocks hread
    have hnext : next.position ≠ s.title := fun he => hne (hposition.symm.trans he)
    unfold readCode
    rw [← hposition]
    simp only [blockLengths] at hread
    simp only [hread, bind, Except.bind, if_neg hnext]
  · right
    obtain ⟨offset, length, he, -⟩ :=
      @readBlocks_of_lt (blockLengths data s) ⟨data.drop s.code, s.code⟩ (Nat.lt_of_not_le hfits)
    simp only [blockLengths, hrest] at he
    refine ⟨by omega, offset, length, ?_⟩
    simp only [readCode, he, bind, Except.bind]

/-! ## 4. Code blocks in their section -/

/-- The blocks are the code section, cut as the table says. -/
structure BlocksTile (data : Bytes) (s : Sections) (blocks : List Bytes) : Prop where
  count : blocks.length = (s.tokens - s.table) / 2
  lengths : ∀ i block, blocks[i]? = some block →
    ∃ words, Bytes.readWord16 data (s.table + 2 * i) = .ok words ∧
      block.length = 2 * words.toNat
  content : blocks.flatten = between data s.code s.title

/-- **Blocks that are read tile their section.** -/
theorem blocksTile_of_readCode (h : s.LieIn data) {blocks : List Bytes}
    (hblocks : readCode data s = .ok blocks) : BlocksTile data s blocks := by
  obtain ⟨next, hread, hposition⟩ := readBlocks_of_readCode hblocks
  obtain ⟨hcounts, hr⟩ := readBlocks_eq_ok.1 hread
  constructor
  case count =>
    rw [← hcounts.length_eq]
    exact length_blockLengths h
  case lengths =>
    intro i block hblock
    obtain ⟨hi, rfl⟩ := List.getElem?_eq_some_iff.1 hblock
    have hcount : i < (blockLengths data s).length := by
      rw [blockLengths, hcounts.length_eq]
      exact hi
    exact ⟨(blockLengths data s)[i],
      readWord16_of_getElem?_wordsOf (List.getElem?_eq_getElem hcount),
      hcounts.get hcount hi⟩
  case content =>
    have hend : s.title = s.code + blocks.flatten.length := hposition.symm.trans hr.position
    have hdata : data.drop s.code = blocks.flatten ++ next.rest := hr.rest
    rw [between, hdata, hend, Nat.add_sub_cancel_left, List.take_left]

/-- **A library is read section by section**: the code blocks first, then the keywords. -/
theorem parse_of_lieIn (h : s.LieIn data) :
    ∃ flag, Bytes.readWord16 data 16 = .ok flag ∧ parse data = (do
      let codeBlocks ← readCode data s
      let tokens ← TokenTable.read data s.tokens s.code
      .ok ⟨flag ≠ 0, hasMarker data, codeBlocks, tokens,
        titleStrings (between data s.title s.finish)⟩) := by
  have hordered := h.ordered
  have hinside := h.inside
  have hlong : ¬ data.length < headerLength := by
    rw [headerLength]
    omega
  obtain ⟨flag, hflag⟩ := @Bytes.exists_readWord16 data 16 (by omega)
  refine ⟨flag, hflag, ?_⟩
  unfold parse
  rw [if_neg hlong, hflag, readSections_eq_ok.2 h]
  rfl

/-- **The code blocks of a library tile its code section**: there is one for every two bytes of the
    table, each has twice as many bytes as its word in the table says, and one behind the other
    they are the bytes between the token table and the titles. Data whose blocks are longer or
    shorter than the section is refused. -/
theorem codeBlocks_tile (data : Bytes) :
    (∀ library, parse data = .ok library →
      ∃ s : Sections, s.LieIn data ∧ BlocksTile data s library.codeBlocks) ∧
    ∀ s : Sections, s.LieIn data → s.code + blockTotal data s ≠ s.title →
      parse data = .error (.badSection (.blockTable (s.code + blockTotal data s) s.title)) ∨
        data.length < s.code + blockTotal data s ∧
          ∃ offset length, parse data
            = .error (.truncated offset length (data.length - offset)) := by
  constructor
  · intro library h
    obtain ⟨s, hsections, hcode⟩ := readCode_of_parse h
    have hlie := readSections_eq_ok.1 hsections
    exact ⟨s, hlie, blocksTile_of_readCode hlie hcode⟩
  · intro s hlie hne
    obtain ⟨flag, -, hparse⟩ := parse_of_lieIn hlie
    obtain he | ⟨hlt, offset, length, he⟩ := readCode_of_ne hlie hne
    · left
      rw [hparse, he]
      rfl
    · right
      refine ⟨hlt, offset, length, ?_⟩
      rw [hparse, he]
      rfl

/-- A library with the marker and two code blocks, the second one of the given length in words. Its
    table has a byte left over, so its keywords start at an odd offset. -/
def markedLibrary (words : UInt8) : Bytes :=
  [0, 0, 0, 5, 0, 0, 0, 2, 0, 0, 0, 6, 0, 0, 0, 1, 0, 0] ++ marker
    ++ [0, 1, 0, words, 9, 0, 0, 0x4E, 0x75, 0x70, 1, 0x4E, 0x75, 0x56]

/-- Two words of the second block fill the code section; with one, the blocks end in front of the
    titles. -/
theorem codeBlocks_tile_marked :
    (∃ library, parse (markedLibrary 2) = .ok library ∧
      (∃ s : Sections, s.LieIn (markedLibrary 2) ∧
        BlocksTile (markedLibrary 2) s library.codeBlocks) ∧
      library.codeBlocks = [[0x4E, 0x75], [0x70, 1, 0x4E, 0x75]]) ∧
    parse (markedLibrary 1) = .error (.badSection (.blockTable 33 35)) := by
  have htokens : TokenTable.read (markedLibrary 2) 27 29 = .ok [] := by
    unfold TokenTable.read
    exact TokenTable.readFrom_none rfl
  have hfilled : (⟨22, 27, 29, 35, 36⟩ : Sections).LieIn (markedLibrary 2) :=
    readSections_eq_ok.1 rfl
  have hshort : (⟨22, 27, 29, 35, 36⟩ : Sections).LieIn (markedLibrary 1) :=
    readSections_eq_ok.1 rfl
  obtain ⟨flag, -, hparse⟩ := parse_of_lieIn hfilled
  have hlibrary : parse (markedLibrary 2) = .ok ⟨flag ≠ 0, true,
      [[0x4E, 0x75], [0x70, 1, 0x4E, 0x75]], [], ["V"]⟩ :=
    hparse.trans (bind_eq_ok.2 ⟨_, rfl, bind_eq_ok.2 ⟨_, htokens, rfl⟩⟩)
  refine ⟨⟨_, hlibrary, (codeBlocks_tile (markedLibrary 2)).1 _ hlibrary, rfl⟩, ?_⟩
  obtain he | ⟨hlt, -⟩ := (codeBlocks_tile (markedLibrary 1)).2 _ hshort (by decide)
  · exact he
  · exact absurd hlt (by decide)

end AmigaBinary.Library
