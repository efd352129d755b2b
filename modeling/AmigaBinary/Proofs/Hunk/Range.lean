import AmigaBinary.Proofs.Hunk.RoundTrip

/-!
# The range of a hunk file

The header of a file declares which segments follow. The blocks are read up to the end of the data,
whatever the header declares: the same header is read with any blocks behind it (`Holds.swap`), so
also with a part of them or with more. What a file says of its segments is the truth exactly if
their number is that of the range (`truthful_iff`). A count of 32 bits is their number in all data
of less than 2^35 bytes (`segmentCount_lt`).
-/

namespace AmigaBinary

namespace HunkFile

variable {file : HunkFile} {n : Nat}

namespace Layout

variable {l : Layout} {blocks : List Hunk.Block} {hunks : List Hunk}

/-! ## 1. The declared range -/

/-- The number of segments that the header declares to follow. -/
def span (l : Layout) : Nat :=
  l.last.toNat - l.first.toNat + 1

/-- The file holds the segments that the header declares to follow, and it is complete only if
    these are all segments of the table. -/
structure Truthful (l : Layout) (file : HunkFile) : Prop where
  count : segmentCount file.hunks = l.span
  extent : file.extent = .range l.first l.last ∨
    file.extent = .complete ∧ l.first = 0 ∧ l.last.toNat + 1 = l.total.toNat

/-- The range is that of the whole table if it has as many segments. -/
theorem Holds.whole_of_span (h : l.Holds file) (hspan : l.span = l.total.toNat) :
    l.first = 0 ∧ l.last.toNat + 1 = l.total.toNat := by
  have hordered := UInt32.le_iff_toNat_le.1 h.ordered
  have hinside := UInt32.lt_iff_toNat_lt.1 h.inside
  unfold span at hspan
  have hfirst : l.first.toNat = 0 := by omega
  exact ⟨UInt32.toNat_inj.1 hfirst, by omega⟩

/-- A file is complete exactly if it has as many segments as the table has entries. -/
theorem Holds.isComplete_iff (h : l.Holds file) :
    file.extent = .complete ↔ segmentCount file.hunks = l.total.toNat := by
  rw [h.extent]
  unfold Layout.extent
  by_cases htotal : segmentCount file.hunks = l.total.toNat
  · rw [if_pos htotal]
    exact ⟨fun _ => htotal, fun _ => rfl⟩
  · rw [if_neg htotal]
    exact ⟨nofun, fun hcount => absurd hcount htotal⟩

/-- A file that is not complete is the declared range. -/
theorem Holds.extent_cases (h : l.Holds file) :
    file.extent = .complete ∨ file.extent = .range l.first l.last := by
  rw [h.extent]
  unfold Layout.extent
  split
  · exact .inl rfl
  · exact .inr rfl

/-- **What a file says of its segments is the truth exactly if their number is that of the
    range.** -/
theorem Holds.truthful_iff (h : l.Holds file) :
    l.Truthful file ↔ segmentCount file.hunks = l.span := by
  constructor
  · exact Truthful.count
  · intro hcount
    refine ⟨hcount, ?_⟩
    by_cases htotal : segmentCount file.hunks = l.total.toNat
    · exact .inr ⟨h.isComplete_iff.2 htotal, h.whole_of_span (hcount.symm.trans htotal)⟩
    · exact .inl (h.extent.trans (if_neg htotal))

/-! ## 2. Other blocks behind the same header -/

/-- The header with other blocks behind it. -/
def swap (l : Layout) (blocks : List Hunk.Block) : Layout :=
  { l with blocks := blocks }

/-- **A header that is read is read with any blocks behind it.** -/
theorem Holds.swap (h : l.Holds file) (hblocks : List.Forall₂ Hunk.Block.Holds blocks hunks) :
    (l.swap blocks).Holds (l.file hunks) where
  nuls := h.nuls
  total := h.total
  ordered := h.ordered
  inside := h.inside
  sizes := rfl
  blocks := hblocks
  extent := rfl

/-- The file that is cut short in front of block number `n`. -/
def cut (l : Layout) (n : Nat) : Layout :=
  l.swap (l.blocks.take n)

/-- The file with more blocks at its end. -/
def extend (l : Layout) (blocks : List Hunk.Block) : Layout :=
  l.swap (l.blocks ++ blocks)

theorem bytes_cut_prefix (l : Layout) (n : Nat) : (l.cut n).bytes <+: l.bytes := by
  refine ⟨(l.blocks.drop n).flatMap Hunk.Block.bytes, ?_⟩
  show l.header ++ (l.blocks.take n).flatMap _ ++ _ = l.header ++ _
  rw [List.append_assoc, ← List.flatMap_append, List.take_append_drop]

theorem bytes_extend (l : Layout) (blocks : List Hunk.Block) :
    (l.extend blocks).bytes = l.bytes ++ blocks.flatMap Hunk.Block.bytes := by
  show l.header ++ (l.blocks ++ blocks).flatMap _ = l.header ++ l.blocks.flatMap _ ++ _
  rw [List.flatMap_append, List.append_assoc]

theorem Holds.cut (h : l.Holds file) (n : Nat) :
    (l.cut n).Holds (l.file (file.hunks.take n)) :=
  h.swap (List.forall₂_take n h.blocks)

theorem Holds.extend (h : l.Holds file) (hblocks : List.Forall₂ Hunk.Block.Holds blocks hunks) :
    (l.extend blocks).Holds (l.file (file.hunks ++ hunks)) :=
  h.swap (List.rel_append h.blocks hblocks)

/-- A file that is cut short still tells the truth only if no segment was cut off. -/
theorem Holds.truthful_cut_iff (h : l.Holds file) (htruthful : l.Truthful file) :
    (l.cut n).Truthful (l.file (file.hunks.take n)) ↔ segmentCount (file.hunks.drop n) = 0 := by
  have hsum := segmentCount_take_add_drop file.hunks n
  have hcount := htruthful.count
  rw [(h.cut n).truthful_iff]
  show segmentCount (file.hunks.take n) = l.span ↔ _
  omega

/-- A file with more blocks still tells the truth only if no segment is among them. -/
theorem Holds.truthful_extend_iff (h : l.Holds file)
    (hblocks : List.Forall₂ Hunk.Block.Holds blocks hunks) (htruthful : l.Truthful file) :
    (l.extend blocks).Truthful (l.file (file.hunks ++ hunks)) ↔ segmentCount hunks = 0 := by
  have hcount := htruthful.count
  rw [(h.extend hblocks).truthful_iff]
  show segmentCount (file.hunks ++ hunks) = l.span ↔ _
  rw [segmentCount_append]
  omega

/-! ## 3. Counting in 32 bits -/

/-- A segment takes eight bytes at least. -/
theorem eight_le_length {block : Hunk.Block} {hunk : Hunk} (h : block.Holds hunk)
    (hsegment : hunk.isSegment = true) : 8 ≤ block.bytes.length := by
  rw [Hunk.Block.bytes, h.contents, List.length_append, Bytes.length_ofWord32]
  cases hunk with
  | code body | data body =>
      rw [Hunk.contents, Hunk.writeBody, List.length_append, countWord, Bytes.length_ofWord32]
      omega
  | reloc32 _ | finish => cases hsegment

theorem eight_mul_segmentCount_le (h : List.Forall₂ Hunk.Block.Holds blocks hunks) :
    8 * segmentCount hunks ≤ (blocks.flatMap Hunk.Block.bytes).length := by
  unfold segmentCount
  induction h with
  | nil => exact Nat.le_refl _
  | @cons block hunk blocks hunks hblock _ ih =>
      rw [List.flatMap_cons, List.length_append, List.countP_cons]
      split
      · rename_i hsegment
        have hlength := eight_le_length hblock hsegment
        omega
      · omega

/-- **A count of 32 bits counts all segments** of data that is shorter than 2^35 bytes. -/
theorem Holds.segmentCount_lt (h : l.Holds file) (hlength : l.bytes.length < 0x800000000) :
    segmentCount file.hunks < 0x100000000 := by
  have hblocks := eight_mul_segmentCount_le h.blocks
  rw [bytes, List.length_append] at hlength
  omega

/-- From 2^32 segments on, it is not their number. -/
theorem toNat_segmentCount_iff :
    (UInt32.ofNat (segmentCount hunks)).toNat = segmentCount hunks ↔
      segmentCount hunks < 0x100000000 := by
  rw [UInt32.toNat_ofNat']
  exact Nat.mod_eq_iff_lt (by decide)

end Layout

/-! ## 4. Files that are read -/

/-- **The range of a file that is read.** It lies inside of the table. The file is complete exactly
    if it has as many segments as the table has entries, and else it is the declared range; it tells
    the truth exactly if they are as many as the range has. Nothing is refused for their number: cut
    short in front of any block, or with any blocks more, the data is still read, with the same
    range, and what it says is no longer the truth as soon as a segment was lost or gained. Only
    beyond 2^35 bytes, a count of 32 bits is not the number of segments. -/
theorem range_of_parse {data : Bytes} (h : parse data = .ok file) :
    ∃ l : Layout, data = l.bytes ∧ l.Holds file ∧
      (l.first ≤ l.last ∧ l.last.toNat < file.sizes.length) ∧
      (file.extent = .complete ↔ segmentCount file.hunks = file.sizes.length) ∧
      (file.extent = .complete ∨ file.extent = .range l.first l.last) ∧
      (data.length < 0x800000000 →
        (UInt32.ofNat (segmentCount file.hunks)).toNat = segmentCount file.hunks) ∧
      (l.Truthful file ↔ segmentCount file.hunks = l.span) ∧
      (∀ n, (l.cut n).bytes <+: data ∧
        parse (l.cut n).bytes = .ok (l.file (file.hunks.take n)) ∧
        (l.Truthful file → ((l.cut n).Truthful (l.file (file.hunks.take n)) ↔
          segmentCount (file.hunks.drop n) = 0))) ∧
      ∀ blocks hunks, List.Forall₂ Hunk.Block.Holds blocks hunks →
        parse (data ++ blocks.flatMap Hunk.Block.bytes) = .ok (l.file (file.hunks ++ hunks)) ∧
        (l.Truthful file → ((l.extend blocks).Truthful (l.file (file.hunks ++ hunks)) ↔
          segmentCount hunks = 0)) := by
  obtain ⟨l, rfl, hl⟩ := parse_eq_ok.1 h
  have hinside := UInt32.lt_iff_toNat_lt.1 hl.inside
  have hsizes := hl.length_sizes
  refine ⟨l, rfl, hl, ⟨hl.ordered, ?_⟩, ?_, hl.extent_cases, ?_, hl.truthful_iff, ?_, ?_⟩
  · omega
  · rw [hsizes]
    exact hl.isComplete_iff
  · exact fun hlength => Layout.toNat_segmentCount_iff.2 (hl.segmentCount_lt hlength)
  · intro n
    exact ⟨l.bytes_cut_prefix n, parse_bytes (hl.cut n), hl.truthful_cut_iff⟩
  · intro blocks hunks hblocks
    refine ⟨?_, hl.truthful_extend_iff hblocks⟩
    rw [← Layout.bytes_extend]
    exact parse_bytes (hl.extend hblocks)

/-- Two segments, which are all of the program. -/
def twoSegments : Layout where
  nuls := 0
  total := 2
  first := 0
  last := 1
  sizes := [1, 1]
  blocks :=
    [⟨0x3E9, [0, 0, 0, 1, 0x4E, 0x71, 0x4E, 0x75]⟩, ⟨0x3F2, []⟩,
      ⟨0x3EA, [0, 0, 0, 1, 0, 0, 0, 7]⟩, ⟨0x3F2, []⟩]

/-- The file with these segments. -/
def twoSegmentFile : HunkFile where
  extent := .complete
  sizes := [⟨4, .any⟩, ⟨4, .any⟩]
  hunks := [.code [0x4E, 0x71, 0x4E, 0x75], .finish, .data [0, 0, 0, 7], .finish]

theorem holds_twoSegments : twoSegments.Holds twoSegmentFile where
  nuls := by decide
  total := by decide
  ordered := by decide
  inside := by decide
  sizes := by decide
  blocks := .cons ⟨by decide, by decide, by decide⟩ (.cons ⟨by decide, by decide, by decide⟩
    (.cons ⟨by decide, by decide, by decide⟩ (.cons ⟨by decide, by decide, by decide⟩ .nil)))
  extent := by decide

/-- Whole, the file tells the truth; with one block less, it is still read, and still does. -/
theorem range_of_parse_twoSegments :
    twoSegments.Truthful twoSegmentFile ∧
      parse (twoSegments.cut 3).bytes = .ok (twoSegments.file (twoSegmentFile.hunks.take 3)) ∧
      (twoSegments.cut 3).Truthful (twoSegments.file (twoSegmentFile.hunks.take 3)) := by
  obtain ⟨l, hbytes, hl, -, -, -, -, htruthful, hcut, -⟩ :=
    range_of_parse (parse_bytes holds_twoSegments)
  obtain rfl := Layout.eq_of_bytes holds_twoSegments hl hbytes
  have hwhole : twoSegments.Truthful twoSegmentFile := htruthful.2 (by decide)
  exact ⟨hwhole, (hcut 3).2.1, ((hcut 3).2.2 hwhole).2 (by decide)⟩

/-- Cut in front of the second segment, the file is read as holding both, but it has one; with the
    second segment twice, it is read as holding two, but it has three. -/
theorem parse_untruthful :
    (∃ file, parse (twoSegments.cut 2).bytes = .ok file ∧ file.extent = .range 0 1 ∧
      segmentCount file.hunks = 1 ∧ ¬ (twoSegments.cut 2).Truthful file) ∧
    ∃ file, parse (twoSegments.extend (twoSegments.blocks.drop 2)).bytes = .ok file ∧
      file.extent = .range 0 1 ∧ segmentCount file.hunks = 3 ∧
      ¬ (twoSegments.extend (twoSegments.blocks.drop 2)).Truthful file := by
  constructor
  · refine ⟨_, parse_bytes (holds_twoSegments.cut 2), by decide, by decide, ?_⟩
    intro htruthful
    exact absurd htruthful.count (by decide)
  · have hextended := holds_twoSegments.extend (List.forall₂_drop 2 holds_twoSegments.blocks)
    refine ⟨_, parse_bytes hextended, by decide, by decide, ?_⟩
    intro htruthful
    exact absurd htruthful.count (by decide)

end HunkFile

end AmigaBinary
