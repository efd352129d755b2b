import AmigaBinary.Proofs.Hunk.Blocks
import AmigaBinary.Proofs.Hunk.Sizes
import Mathlib.Data.List.TakeWhile

/-!
# The layout of a hunk file

A hunk file has a layout: the NULs that stand for no resident library, the numbers of its header,
the words of its table and its blocks with their flags. A byte string is read as a file exactly if
it is the bytes of a layout that stands for this file (`parse_eq_ok`), so no byte of it is left out.
-/

namespace AmigaBinary

namespace HunkFile

variable {c next : Cursor}

/-! ## 1. No resident library -/

theorem trimNuls_eq_nil {data : Bytes} :
    Bytes.trimNuls data = [] ↔ data = List.replicate data.length 0 := by
  unfold Bytes.trimNuls
  rw [List.reverse_eq_nil_iff, List.dropWhile_eq_nil_iff, List.eq_replicate_iff]
  constructor
  · intro h
    exact ⟨rfl, fun byte hb => eq_of_beq (h byte (List.mem_reverse.2 hb))⟩
  · rintro ⟨-, h⟩ byte hb
    exact beq_iff_eq.2 (h byte (List.mem_reverse.1 hb))

/-- The empty name that ends the list of resident libraries, padded with NULs. -/
def terminator (nuls : Nat) : Bytes :=
  countWord nuls ++ List.replicate nuls 0

theorem readName_eq_nil :
    readName c = .ok ([], next) ↔ ∃ nuls < 0x100000000, c.Reads (terminator nuls) next := by
  unfold readName
  rw [Cursor.word32_bind_eq_ok]
  constructor
  · rintro ⟨length, d, hl, h⟩
    obtain ⟨⟨name, d'⟩, hn, h⟩ := bind_eq_ok.1 h
    obtain ⟨htrim, rfl⟩ := Prod.mk.inj (Except.ok.inj h)
    obtain ⟨hlen, hr⟩ := Cursor.take_eq_ok.1 hn
    rw [trimNuls_eq_nil, hlen] at htrim
    refine ⟨length.toNat, length.toNat_lt, ?_⟩
    rw [terminator, Hunk.countWord_toNat, ← htrim]
    exact hl.trans hr
  · rintro ⟨nuls, hlt, hr⟩
    obtain ⟨d, hl, hr⟩ := Cursor.reads_append.1 hr
    have hnuls : (UInt32.ofNat nuls).toNat = nuls := UInt32.toNat_ofNat_of_lt' hlt
    have htrim : Bytes.trimNuls (List.replicate nuls 0) = [] := by
      rw [trimNuls_eq_nil, List.length_replicate]
    refine ⟨_, d, hl, bind_eq_ok.2 ⟨_, Cursor.take_eq_ok.2 ⟨?_, hr⟩, ?_⟩⟩
    · rw [List.length_replicate, hnuls]
    · dsimp only
      rw [htrim]

theorem readNames_eq_nil : readNames c = .ok ([], next) ↔ readName c = .ok ([], next) := by
  rw [readNames]
  split
  · rename_i e he
    rw [he]
    simp
  · rename_i d hd
    rw [hd]
    simp
  · rename_i byte name d hd
    rw [hd]
    constructor
    · intro h
      split at h <;> cases h
    · intro h
      cases h

/-! ## 2. Layouts -/

/-- What stands in a file. -/
structure Layout where
  nuls : Nat
  total : UInt32
  first : UInt32
  last : UInt32
  sizes : List UInt32
  blocks : List Hunk.Block
  deriving DecidableEq, Repr

namespace Layout

/-- The bytes of the header. -/
def header (l : Layout) : Bytes :=
  Bytes.ofWord32 Hunk.headerTag ++ terminator l.nuls ++ Bytes.ofWord32 l.total
    ++ Bytes.ofWord32 l.first ++ Bytes.ofWord32 l.last ++ l.sizes.flatMap Bytes.ofWord32

/-- The bytes of the file. -/
def bytes (l : Layout) : Bytes :=
  l.header ++ l.blocks.flatMap Hunk.Block.bytes

/-- What a file with these blocks says about its segments. -/
def extent (l : Layout) (hunks : List Hunk) : Extent :=
  if segmentCount hunks = l.total.toNat then .complete else .range l.first l.last

/-- The layout stands for a file. -/
structure Holds (l : Layout) (file : HunkFile) : Prop where
  nuls : l.nuls < 0x100000000
  total : l.sizes.length = l.total.toNat
  ordered : l.first ≤ l.last
  inside : l.last < l.total
  sizes : l.sizes.map .ofWord = file.sizes
  blocks : List.Forall₂ Hunk.Block.Holds l.blocks file.hunks
  extent : file.extent = l.extent file.hunks

theorem reads_header {l : Layout} : c.Reads l.header next ↔
    ∃ d₁ d₂ d₃ d₄ d₅, c.Reads (Bytes.ofWord32 Hunk.headerTag) d₁ ∧ d₁.Reads (terminator l.nuls) d₂ ∧
      d₂.Reads (Bytes.ofWord32 l.total) d₃ ∧ d₃.Reads (Bytes.ofWord32 l.first) d₄ ∧
      d₄.Reads (Bytes.ofWord32 l.last) d₅ ∧ d₅.Reads (l.sizes.flatMap Bytes.ofWord32) next := by
  unfold header
  constructor
  · intro h
    obtain ⟨d₅, h, hsizes⟩ := Cursor.reads_append.1 h
    obtain ⟨d₄, h, hlast⟩ := Cursor.reads_append.1 h
    obtain ⟨d₃, h, hfirst⟩ := Cursor.reads_append.1 h
    obtain ⟨d₂, h, htotal⟩ := Cursor.reads_append.1 h
    obtain ⟨d₁, hmagic, hnuls⟩ := Cursor.reads_append.1 h
    exact ⟨d₁, d₂, d₃, d₄, d₅, hmagic, hnuls, htotal, hfirst, hlast, hsizes⟩
  · rintro ⟨d₁, d₂, d₃, d₄, d₅, hmagic, hnuls, htotal, hfirst, hlast, hsizes⟩
    exact ((((hmagic.trans hnuls).trans htotal).trans hfirst).trans hlast).trans hsizes

end Layout

/-! ## 3. Reading a file -/

/-- The file that a layout with these blocks stands for. -/
def Layout.file (l : Layout) (hunks : List Hunk) : HunkFile :=
  ⟨l.extent hunks, l.sizes.map .ofWord, hunks⟩

theorem Layout.Holds.eq_file {l : Layout} {file : HunkFile} (h : l.Holds file) :
    file = l.file file.hunks := by
  cases file
  rw [Layout.file, h.sizes, ← h.extent]

theorem layout_of_parse {data : Bytes} {file : HunkFile} (h : parse data = .ok file) :
    ∃ l : Layout, data = l.bytes ∧ l.Holds file := by
  unfold parse at h
  rw [Cursor.word32_bind_eq_ok] at h
  obtain ⟨magic, d₁, hmagic, h⟩ := h
  dsimp only at h
  by_cases htag : magic = Hunk.headerTag
  · rw [if_neg (not_not.2 htag), bind_eq_ok] at h
    obtain ⟨⟨names, d₂⟩, hnames, h⟩ := h
    dsimp only at h
    by_cases hempty : names = []
    · rw [if_neg (not_not.2 hempty), Cursor.word32_bind_eq_ok] at h
      subst hempty htag
      obtain ⟨nuls, hlt, hnuls⟩ := readName_eq_nil.1 (readNames_eq_nil.1 hnames)
      obtain ⟨total, d₃, htotal, h⟩ := h
      rw [Cursor.word32_bind_eq_ok] at h
      obtain ⟨first, d₄, hfirst, h⟩ := h
      rw [Cursor.word32_bind_eq_ok] at h
      obtain ⟨last, d₅, hlast, h⟩ := h
      dsimp only at h
      by_cases hrange : last < first ∨ total ≤ last
      · rw [if_pos hrange] at h
        cases h
      · rw [if_neg hrange, bind_eq_ok] at h
        obtain ⟨⟨sizes, d₆⟩, hsizes, h⟩ := h
        rw [bind_eq_ok] at h
        obtain ⟨hunks, hhunks, h⟩ := h
        obtain ⟨words, hlen, rfl, htable⟩ := readSizes_eq_ok.1 hsizes
        obtain ⟨blocks, hblocks, hrest⟩ := Hunk.readAll_eq_ok.1 hhunks
        rw [not_or, UInt32.not_lt, UInt32.not_le] at hrange
        have hheader : (Cursor.start data).Reads
            (Layout.header ⟨nuls, total, first, last, words, blocks⟩) d₆ :=
          Layout.reads_header.2 ⟨d₁, d₂, d₃, d₄, d₅, hmagic, hnuls, htotal, hfirst, hlast, htable⟩
        have hfile : file = Layout.file ⟨nuls, total, first, last, words, blocks⟩ hunks := by
          dsimp only at h
          unfold Layout.file Layout.extent
          split at h <;> rename_i hcount
          · rw [if_pos hcount]
            exact (Except.ok.inj h).symm
          · rw [if_neg hcount]
            exact (Except.ok.inj h).symm
        subst hfile
        refine ⟨⟨nuls, total, first, last, words, blocks⟩, ?_,
          hlt, hlen, hrange.1, hrange.2, rfl, hblocks, rfl⟩
        rw [(Cursor.reads_start.1 hheader).1, hrest]
        rfl
    · rw [if_pos hempty] at h
      cases h
  · rw [if_pos htag] at h
    cases h

theorem parse_bytes {l : Layout} {file : HunkFile} (h : l.Holds file) :
    parse l.bytes = .ok file := by
  have hheader : (Cursor.start l.bytes).Reads l.header
      ⟨l.blocks.flatMap Hunk.Block.bytes, l.header.length⟩ := Cursor.reads_start.2 ⟨rfl, rfl⟩
  obtain ⟨d₁, d₂, d₃, d₄, d₅, hmagic, hnuls, htotal, hfirst, hlast, hsizes⟩ :=
    Layout.reads_header.1 hheader
  have hnames : readNames d₁ = .ok ([], d₂) :=
    readNames_eq_nil.2 (readName_eq_nil.2 ⟨l.nuls, h.nuls, hnuls⟩)
  have hrange : ¬ (l.last < l.first ∨ l.total ≤ l.last) := by
    rw [not_or, UInt32.not_lt, UInt32.not_le]
    exact ⟨h.ordered, h.inside⟩
  have htable := readSizes_eq_ok.2 ⟨l.sizes, h.total, rfl, hsizes⟩
  have hblocks : Hunk.readAll ⟨l.blocks.flatMap Hunk.Block.bytes, l.header.length⟩
      = .ok file.hunks := Hunk.readAll_eq_ok.2 ⟨l.blocks, h.blocks, rfl⟩
  unfold parse
  rw [Cursor.word32_bind_eq_ok]
  refine ⟨_, d₁, hmagic, ?_⟩
  dsimp only
  rw [if_neg (not_not.2 rfl)]
  refine bind_eq_ok.2 ⟨_, hnames, ?_⟩
  dsimp only
  rw [if_neg (not_not.2 rfl), Cursor.word32_bind_eq_ok]
  refine ⟨_, d₃, htotal, Cursor.word32_bind_eq_ok.2 ⟨_, d₄, hfirst,
    Cursor.word32_bind_eq_ok.2 ⟨_, d₅, hlast, ?_⟩⟩⟩
  dsimp only
  rw [if_neg hrange]
  refine bind_eq_ok.2 ⟨_, htable, bind_eq_ok.2 ⟨_, hblocks, ?_⟩⟩
  have hfile := h.eq_file
  unfold Layout.file Layout.extent at hfile
  dsimp only
  split <;> rename_i hcount
  · rw [if_pos hcount] at hfile
    rw [← hfile]
  · rw [if_neg hcount] at hfile
    rw [← hfile]

/-- **What is read as a file is the bytes of a layout that stands for it**, and nothing else. -/
theorem parse_eq_ok {data : Bytes} {file : HunkFile} :
    parse data = .ok file ↔ ∃ l : Layout, data = l.bytes ∧ l.Holds file := by
  constructor
  · exact layout_of_parse
  · rintro ⟨l, rfl, h⟩
    exact parse_bytes h

end HunkFile

end AmigaBinary
