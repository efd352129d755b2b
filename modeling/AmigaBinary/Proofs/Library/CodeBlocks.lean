import AmigaBinary.Library.Parse
import AmigaBinary.Proofs.Cursor
import Mathlib.Data.List.Forall2

/-!
# The code blocks of a library

The table of a library counts the length of each code block in words. So the blocks are read one
behind the other, each with two bytes for every word that is counted (`readBlocks_eq_ok`), and every
block of a library that is read has an even length (`even_of_mem_codeBlocks`).
-/

namespace AmigaBinary.Library

/-- **Blocks are read one behind the other**, each as long as its count of words. -/
theorem readBlocks_eq_ok {counts : List UInt16} {blocks : List Bytes} {c next : Cursor} :
    readBlocks counts c = .ok (blocks, next) ↔
      List.Forall₂ (fun count block => block.length = 2 * count.toNat) counts blocks ∧
        c.Reads blocks.flatten next := by
  induction counts generalizing blocks c with
  | nil =>
      constructor
      · intro h
        obtain ⟨rfl, rfl⟩ := Prod.mk.inj (Except.ok.inj h)
        exact ⟨.nil, Cursor.reads_nil.2 rfl⟩
      · rintro ⟨hblocks, hr⟩
        cases hblocks
        obtain rfl := Cursor.reads_nil.1 hr
        rfl
  | cons count counts ih =>
      constructor
      · intro h
        obtain ⟨⟨block, d⟩, htake, h⟩ := bind_eq_ok.1 h
        obtain ⟨⟨more, d'⟩, hmore, h⟩ := bind_eq_ok.1 h
        obtain ⟨rfl, rfl⟩ := Prod.mk.inj (Except.ok.inj h)
        obtain ⟨hlen, hr⟩ := Cursor.take_eq_ok.1 htake
        obtain ⟨hblocks, hrest⟩ := ih.1 hmore
        exact ⟨.cons hlen hblocks, hr.trans hrest⟩
      · rintro ⟨hblocks, hr⟩
        cases hblocks with
        | cons hlen hblocks =>
            obtain ⟨d, hfirst, hrest⟩ := Cursor.reads_append.1 hr
            exact bind_eq_ok.2 ⟨_, Cursor.take_eq_ok.2 ⟨hlen, hfirst⟩,
              bind_eq_ok.2 ⟨_, ih.2 ⟨hblocks, hrest⟩, rfl⟩⟩

/-- Blocks that are counted in words have even lengths. -/
theorem even_of_counts {counts : List UInt16} {blocks : List Bytes}
    (h : List.Forall₂ (fun count block => block.length = 2 * count.toNat) counts blocks) :
    ∀ block ∈ blocks, block.length % 2 = 0 := by
  induction h with
  | nil => exact List.forall_mem_nil _
  | cons hlen _ ih => exact List.forall_mem_cons.2 ⟨by omega, ih⟩

/-- A library that is read has the blocks that its code section is read as. -/
theorem readCode_of_parse {data : Bytes} {library : Library} (h : parse data = .ok library) :
    ∃ sections, readSections data = .ok sections ∧
      readCode data sections = .ok library.codeBlocks := by
  unfold parse at h
  split at h
  · cases h
  · obtain ⟨flag, -, h⟩ := bind_eq_ok.1 h
    obtain ⟨sections, hsections, h⟩ := bind_eq_ok.1 h
    obtain ⟨blocks, hblocks, h⟩ := bind_eq_ok.1 h
    obtain ⟨tokens, -, h⟩ := bind_eq_ok.1 h
    obtain rfl := Except.ok.inj h
    exact ⟨sections, hsections, hblocks⟩

/-- The code section is read as blocks for the words of its table. -/
theorem readBlocks_of_readCode {data : Bytes} {sections : Sections} {blocks : List Bytes}
    (h : readCode data sections = .ok blocks) :
    ∃ next, readBlocks (wordsOf (between data sections.table sections.tokens))
        ⟨data.drop sections.code, sections.code⟩ = .ok (blocks, next) ∧
      next.position = sections.title := by
  obtain ⟨⟨read, next⟩, hread, h⟩ := bind_eq_ok.1 h
  dsimp only at h
  split at h
  · rename_i hposition
    obtain rfl := Except.ok.inj h
    exact ⟨next, hread, hposition⟩
  · cases h

/-- **The code blocks of a library have even lengths.** -/
theorem even_of_mem_codeBlocks {data block : Bytes} {library : Library}
    (h : parse data = .ok library) (hb : block ∈ library.codeBlocks) : block.length % 2 = 0 := by
  obtain ⟨sections, -, hcode⟩ := readCode_of_parse h
  obtain ⟨next, hread, -⟩ := readBlocks_of_readCode hcode
  obtain ⟨hblocks, -⟩ := readBlocks_eq_ok.1 hread
  exact even_of_counts hblocks block hb

end AmigaBinary.Library
