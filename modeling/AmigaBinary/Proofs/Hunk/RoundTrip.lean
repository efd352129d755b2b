import AmigaBinary.Proofs.Hunk.Layout

/-!
# Writing and reading hunk files

A file that is written has the layout of its parts (`write_eq_bytes`), so it is read as its normal
form: padded contents, rounded sizes, no empty lists of relocations. What is read is in this form,
so it is read again as it is written (`parse_write`). The other way round, a file that is read is
written with its own layout, but for the terminator, the flags of the tags and the range of a
complete file (`write_of_parse`).
-/

namespace AmigaBinary

/-! ## 1. Normal forms of blocks -/

theorem Bytes.length_padToLong (data : Bytes) :
    (padToLong data).length = (data.length + 3) / 4 * 4 := by
  unfold padToLong
  rw [List.length_append, List.length_replicate]
  omega

theorem Bytes.getElem?_padToLong_of_lt {data : Bytes} {i : Nat} (h : i < data.length) :
    (padToLong data)[i]? = data[i]? :=
  List.getElem?_append_left h

/-- What data is padded with is zero. -/
theorem Bytes.getElem?_padToLong_of_le {data : Bytes} {i : Nat} (hle : data.length ≤ i)
    (hlt : i < (padToLong data).length) : (padToLong data)[i]? = some 0 := by
  rw [padToLong, List.length_append, List.length_replicate] at hlt
  rw [padToLong, List.getElem?_append_right hle, List.getElem?_replicate, if_pos (by omega)]

namespace Hunk

/-- A block as it is read after it was written. -/
def normalize : Hunk → Hunk
  | .code body => .code (Bytes.padToLong body)
  | .data body => .data (Bytes.padToLong body)
  | .reloc32 blocks => .reloc32 (blocks.filter (·.offsets ≠ []))
  | .finish => .finish

/-- The counts of a block fit a word. -/
def Fits : Hunk → Prop
  | .code body | .data body => (body.length + 3) / 4 < 0x100000000
  | .reloc32 blocks => ∀ block ∈ blocks, block.offsets.length < 0x100000000
  | .finish => True

instance decidableFits : (hunk : Hunk) → Decidable hunk.Fits
  | .code _ | .data _ => Nat.decLt _ _
  | .reloc32 blocks =>
    List.decidableBAll (fun block : RelocBlock => block.offsets.length < 0x100000000) blocks
  | .finish => isTrue trivial

theorem writeBody_padToLong (body : Bytes) : writeBody (Bytes.padToLong body) = writeBody body := by
  have hwhole : (Bytes.padToLong body).length % 4 = 0 := by
    rw [Bytes.length_padToLong]
    omega
  unfold writeBody
  rw [Bytes.padToLong_of_whole hwhole]

theorem flatMap_writeRelocBlock_filter (blocks : List RelocBlock) :
    (blocks.filter (·.offsets ≠ [])).flatMap writeRelocBlock = blocks.flatMap writeRelocBlock := by
  induction blocks with
  | nil => rfl
  | cons block blocks ih =>
      rw [List.flatMap_cons]
      by_cases hempty : block.offsets = []
      · rw [List.filter_cons_of_neg (by simp [hempty]), ih, writeRelocBlock, if_pos hempty]
        rfl
      · rw [List.filter_cons_of_pos (by simp [hempty]), List.flatMap_cons, ih]

/-- The normal form of a block is written like the block. -/
theorem contents_normalize (hunk : Hunk) : hunk.normalize.contents = hunk.contents := by
  cases hunk with
  | code body => exact writeBody_padToLong body
  | data body => exact writeBody_padToLong body
  | reloc32 blocks =>
      show (blocks.filter (·.offsets ≠ [])).flatMap writeRelocBlock ++ _ = _
      rw [flatMap_writeRelocBlock_filter]
      rfl
  | finish => rfl

theorem tag_normalize (hunk : Hunk) : hunk.normalize.tag = hunk.tag := by
  cases hunk <;> rfl

theorem isSegment_normalize (hunk : Hunk) : hunk.normalize.isSegment = hunk.isSegment := by
  cases hunk <;> rfl

theorem whole_padToLong {body : Bytes} (h : (body.length + 3) / 4 < 0x100000000) :
    (Bytes.padToLong body).Whole := by
  have hlen := Bytes.length_padToLong body
  exact ⟨by omega, by omega⟩

theorem canonical_normalize {hunk : Hunk} (h : hunk.Fits) : hunk.normalize.Canonical := by
  cases hunk with
  | code body => exact whole_padToLong h
  | data body => exact whole_padToLong h
  | reloc32 blocks =>
      intro block hb
      obtain ⟨hmem, hne⟩ := List.mem_filter.1 hb
      exact ⟨of_decide_eq_true hne, h block hmem⟩
  | finish => trivial

/-- A block that is read is in normal form. -/
theorem normalize_of_canonical {hunk : Hunk} (h : hunk.Canonical) : hunk.normalize = hunk := by
  cases hunk with
  | code body => exact congrArg Hunk.code (Bytes.padToLong_of_whole h.1)
  | data body => exact congrArg Hunk.data (Bytes.padToLong_of_whole h.1)
  | reloc32 blocks =>
      refine congrArg Hunk.reloc32 (List.filter_eq_self.2 fun block hb => ?_)
      exact decide_eq_true (h block hb).1
  | finish => rfl

theorem fits_of_canonical {hunk : Hunk} (h : hunk.Canonical) : hunk.Fits := by
  cases hunk with
  | code body =>
      obtain ⟨hwhole, hlt⟩ := h
      show (body.length + 3) / 4 < 0x100000000
      omega
  | data body =>
      obtain ⟨hwhole, hlt⟩ := h
      show (body.length + 3) / 4 < 0x100000000
      omega
  | reloc32 blocks => exact fun block hb => (h block hb).2
  | finish => trivial

/-- The block as it is written. -/
def block (hunk : Hunk) : Block :=
  ⟨hunk.tag, hunk.contents⟩

theorem tag_and_mask (hunk : Hunk) : hunk.tag &&& tagMask = hunk.tag := by
  cases hunk with
  | code body => exact (by decide : codeTag &&& tagMask = codeTag)
  | data body => exact (by decide : dataTag &&& tagMask = dataTag)
  | reloc32 blocks => exact (by decide : reloc32Tag &&& tagMask = reloc32Tag)
  | finish => exact (by decide : finishTag &&& tagMask = finishTag)

theorem holds_block {hunk : Hunk} (h : hunk.Fits) : hunk.block.Holds hunk.normalize where
  canonical := canonical_normalize h
  tag := by
    rw [tag_normalize]
    exact tag_and_mask hunk
  contents := (contents_normalize hunk).symm

namespace Block

variable {blocks : List Block} {hunks : List Hunk}

/-- The block without the flags of its tag. -/
def plain (b : Block) : Block :=
  { b with tag := b.tag &&& tagMask }

theorem canonical_of_holds (h : List.Forall₂ Holds blocks hunks) :
    ∀ hunk ∈ hunks, hunk.Canonical := by
  induction h with
  | nil => exact List.forall_mem_nil _
  | cons hb _ ih => exact List.forall_mem_cons.2 ⟨hb.canonical, ih⟩

theorem length_plain (blocks : List Block) :
    ((blocks.map plain).flatMap bytes).length = (blocks.flatMap bytes).length := by
  induction blocks with
  | nil => rfl
  | cons b blocks ih =>
      have hb : b.plain.bytes.length = b.bytes.length := by
        unfold bytes plain
        rw [List.length_append, List.length_append, Bytes.length_ofWord32, Bytes.length_ofWord32]
      rw [List.map_cons, List.flatMap_cons, List.flatMap_cons, List.length_append,
        List.length_append, hb, ih]

/-- The bytes of blocks that stand for the same have the same tags. -/
theorem eq_of_bytes {blocks' : List Block} (h : List.Forall₂ Holds blocks hunks)
    (h' : List.Forall₂ Holds blocks' hunks)
    (hb : blocks.flatMap bytes = blocks'.flatMap bytes) : blocks = blocks' := by
  induction h generalizing blocks' with
  | nil =>
      cases h'
      rfl
  | @cons b hunk blocks hunks hfirst _ ih =>
      cases h' with
      | @cons b' _ blocks' _ hfirst' hrest =>
          have hcontents : b.contents = b'.contents := hfirst.contents.trans hfirst'.contents.symm
          rw [List.flatMap_cons, List.flatMap_cons, bytes, bytes, hcontents, List.append_assoc,
            List.append_assoc] at hb
          obtain ⟨htag, hb⟩ := Bytes.append_ofWord32_inj hb
          have hblocks := ih hrest (List.append_cancel_left hb)
          cases b
          cases b'
          dsimp only at hcontents htag
          rw [hcontents, hblocks, htag]

/-- **Blocks that are read are written without their flags.** -/
theorem map_block (h : List.Forall₂ Holds blocks hunks) : hunks.map block = blocks.map plain := by
  induction h with
  | nil => rfl
  | @cons b hunk _ _ hb _ ih =>
      have hblock : hunk.block = b.plain := by
        rw [block, plain, hb.tag, hb.contents]
      rw [List.map_cons, List.map_cons, hblock, ih]

end Block

end Hunk

/-! ## 2. Normal forms of files -/

/-- What a file says about its segments is true of its blocks. -/
def Extent.Agrees (segments entries : Nat) : Extent → Prop
  | .complete => segments = entries
  | .range first last => first ≤ last ∧ last.toNat < entries ∧ segments ≠ entries

instance (segments entries : Nat) (extent : Extent) :
    Decidable (Extent.Agrees segments entries extent) := by
  cases extent <;> unfold Extent.Agrees <;> infer_instance

namespace HunkFile

/-- A file as it is read after it was written. -/
def normalize (file : HunkFile) : HunkFile :=
  { file with
    sizes := file.sizes.map SegmentSize.rounded
    hunks := file.hunks.map Hunk.normalize }

/-- A file whose counts fit words, and which tells the truth about its segments. -/
structure WellFormed (file : HunkFile) : Prop where
  nonempty : 1 ≤ file.sizes.length
  sizes : file.sizes.length < 0x100000000
  hunks : ∀ hunk ∈ file.hunks, hunk.Fits
  extent : Extent.Agrees (segmentCount file.hunks) file.sizes.length file.extent

/-- The layout in which a file is written. -/
def layout (file : HunkFile) : Layout where
  nuls := 0
  total := UInt32.ofNat file.sizes.length
  first := file.declaredRange.1
  last := file.declaredRange.2
  sizes := file.sizes.map SegmentSize.toWord
  blocks := file.hunks.map Hunk.block

theorem write_eq_bytes (file : HunkFile) : file.write = file.layout.bytes := by
  have hblocks : (file.hunks.map Hunk.block).flatMap Hunk.Block.bytes
      = file.hunks.flatMap Hunk.write := by
    rw [List.flatMap_map]
    congr 1
    funext hunk
    exact (Hunk.write_eq hunk).symm
  have hsizes : (file.sizes.map SegmentSize.toWord).flatMap Bytes.ofWord32
      = file.sizes.flatMap fun size => Bytes.ofWord32 size.toWord := List.flatMap_map ..
  unfold write Layout.bytes
  show file.writeHeader ++ _ = file.layout.header ++ (file.hunks.map Hunk.block).flatMap _
  rw [hblocks]
  congr 1
  show _ = _ ++ (file.sizes.map SegmentSize.toWord).flatMap Bytes.ofWord32
  rw [hsizes]
  rfl

theorem segmentCount_append (front behind : List Hunk) :
    segmentCount (front ++ behind) = segmentCount front + segmentCount behind :=
  List.countP_append

theorem segmentCount_take_add_drop (hunks : List Hunk) (n : Nat) :
    segmentCount (hunks.take n) + segmentCount (hunks.drop n) = segmentCount hunks := by
  rw [← segmentCount_append, List.take_append_drop]

theorem segmentCount_normalize (hunks : List Hunk) :
    segmentCount (hunks.map Hunk.normalize) = segmentCount hunks := by
  unfold segmentCount
  rw [List.countP_map]
  congr 1
  funext hunk
  exact Hunk.isSegment_normalize hunk

/-! ## 3. What is written is read -/

variable {file : HunkFile}

theorem WellFormed.total_eq (h : file.WellFormed) :
    (UInt32.ofNat file.sizes.length).toNat = file.sizes.length :=
  UInt32.toNat_ofNat_of_lt' h.sizes

/-- The range that is written lies inside of the table. -/
theorem WellFormed.declaredRange (h : file.WellFormed) :
    file.declaredRange.1 ≤ file.declaredRange.2 ∧
      file.declaredRange.2.toNat < file.sizes.length := by
  have hextent := h.extent
  have hpos := h.nonempty
  have hlt := h.sizes
  unfold HunkFile.declaredRange
  cases he : file.extent with
  | complete =>
      have hlast : (UInt32.ofNat (file.sizes.length - 1)).toNat = file.sizes.length - 1 :=
        UInt32.toNat_ofNat_of_lt' (by simp only [UInt32.size]; omega)
      refine ⟨?_, ?_⟩
      · rw [UInt32.le_iff_toNat_le]
        exact Nat.zero_le _
      · show (UInt32.ofNat (file.sizes.length - 1)).toNat < file.sizes.length
        omega
  | range first last =>
      rw [he] at hextent
      exact ⟨hextent.1, hextent.2.1⟩

theorem WellFormed.layout_extent (h : file.WellFormed) :
    file.extent = file.layout.extent (file.hunks.map Hunk.normalize) := by
  have hextent := h.extent
  unfold Layout.extent
  rw [segmentCount_normalize]
  show _ = if _ = (UInt32.ofNat file.sizes.length).toNat then _ else _
  rw [h.total_eq]
  cases he : file.extent with
  | complete =>
      rw [he] at hextent
      exact (if_pos hextent).symm
  | range first last =>
      rw [he] at hextent
      rw [if_neg hextent.2.2]
      show Extent.range first last = Extent.range file.declaredRange.1 file.declaredRange.2
      unfold HunkFile.declaredRange
      rw [he]

/-- **The layout of a file stands for its normal form.** -/
theorem WellFormed.layout_holds (h : file.WellFormed) : file.layout.Holds file.normalize where
  nuls := Nat.two_pow_pos 32
  total := by
    show (file.sizes.map SegmentSize.toWord).length = (UInt32.ofNat file.sizes.length).toNat
    rw [List.length_map, h.total_eq]
  ordered := h.declaredRange.1
  inside := by
    rw [UInt32.lt_iff_toNat_lt]
    show file.declaredRange.2.toNat < (UInt32.ofNat file.sizes.length).toNat
    rw [h.total_eq]
    exact h.declaredRange.2
  sizes := by
    show (file.sizes.map SegmentSize.toWord).map .ofWord = file.sizes.map SegmentSize.rounded
    rw [List.map_map]
    congr 1
    funext size
    exact SegmentSize.ofWord_toWord size
  blocks := by
    show List.Forall₂ _ (file.hunks.map Hunk.block) (file.hunks.map Hunk.normalize)
    rw [List.forall₂_map_left_iff, List.forall₂_map_right_iff, List.forall₂_same]
    intro hunk hmem
    exact Hunk.holds_block (h.hunks hunk hmem)
  extent := h.layout_extent

/-- A well-formed file is read, after it was written, in its normal form. -/
theorem WellFormed.read (h : file.WellFormed) : parse file.write = .ok file.normalize := by
  rw [write_eq_bytes]
  exact parse_bytes h.layout_holds

/-! ## 4. What is read is in normal form -/

namespace Layout

variable {l : Layout}

theorem Holds.length_sizes (h : l.Holds file) : file.sizes.length = l.total.toNat := by
  rw [← h.sizes, List.length_map, h.total]

/-- What a file says about its segments is what its layout says. -/
theorem Holds.agrees (h : l.Holds file) :
    Extent.Agrees (segmentCount file.hunks) file.sizes.length file.extent := by
  rw [h.extent, h.length_sizes]
  unfold Layout.extent
  by_cases hcount : segmentCount file.hunks = l.total.toNat
  · rw [if_pos hcount]
    exact hcount
  · rw [if_neg hcount]
    exact ⟨h.ordered, UInt32.lt_iff_toNat_lt.1 h.inside, hcount⟩

/-- **A file that has a layout is well-formed.** -/
theorem Holds.wellFormed (h : l.Holds file) : file.WellFormed where
  nonempty := by
    have hinside := UInt32.lt_iff_toNat_lt.1 h.inside
    rw [h.length_sizes]
    omega
  sizes := by
    rw [h.length_sizes]
    exact l.total.toNat_lt
  hunks hunk hmem := Hunk.fits_of_canonical (Hunk.Block.canonical_of_holds h.blocks hunk hmem)
  extent := h.agrees

/-- **A file that has a layout is in normal form.** -/
theorem Holds.normalize_eq (h : l.Holds file) : file.normalize = file := by
  have hsizes : file.sizes.map SegmentSize.rounded = file.sizes := by
    rw [← h.sizes, List.map_map]
    exact List.map_congr_left fun word _ => SegmentSize.rounded_ofWord word
  have hhunks : file.hunks.map Hunk.normalize = file.hunks := by
    have hcanonical := Hunk.Block.canonical_of_holds h.blocks
    have hmap := List.map_congr_left fun hunk hmem =>
      Hunk.normalize_of_canonical (hcanonical hunk hmem)
    exact hmap.trans (List.map_id' file.hunks)
  unfold HunkFile.normalize
  rw [hsizes, hhunks]

end Layout

/-- A file that is read is read again as it is, after it was written. -/
theorem parse_again {data : Bytes} (h : parse data = .ok file) : parse file.write = .ok file := by
  obtain ⟨l, -, hl⟩ := parse_eq_ok.1 h
  rw [hl.wellFormed.read, hl.normalize_eq]

/-- **Reading undoes writing.** A file that is well-formed is read, after it was written, in its
    normal form; and a file that is read is well-formed and in normal form, so it is read again as
    it is. -/
theorem parse_write :
    (∀ file : HunkFile, file.WellFormed → parse file.write = .ok file.normalize) ∧
      ∀ (data : Bytes) (file : HunkFile), parse data = .ok file →
        file.WellFormed ∧ file.normalize = file ∧ parse file.write = .ok file := by
  refine ⟨fun file => WellFormed.read, fun data file h => ?_⟩
  obtain ⟨l, -, hl⟩ := parse_eq_ok.1 h
  exact ⟨hl.wellFormed, hl.normalize_eq, parse_again h⟩

/-- A range of a program, whose only segment has five bytes, a length that is no multiple of four,
    and a list of relocations without an offset. -/
def ragged : HunkFile where
  extent := .range 0 1
  sizes := [⟨7, .chip⟩, ⟨4, .any⟩, ⟨0, .fast⟩]
  hunks := [.code [1, 2, 3, 4, 5], .reloc32 [⟨1, [0]⟩, ⟨2, []⟩], .finish]

/-- It is read padded, rounded, and without this list, and then read again as it is. -/
theorem parse_write_ragged :
    parse ragged.write = .ok ragged.normalize ∧
      parse ragged.normalize.write = .ok ragged.normalize ∧
      ragged.normalize = ⟨.range 0 1, [⟨4, .chip⟩, ⟨4, .any⟩, ⟨0, .fast⟩],
        [.code [1, 2, 3, 4, 5, 0, 0, 0], .reloc32 [⟨1, [0]⟩], .finish]⟩ := by
  have hragged : ragged.WellFormed := ⟨by decide, by decide, by decide, by decide⟩
  have hread := parse_write.1 ragged hragged
  exact ⟨hread, (parse_write.2 ragged.write ragged.normalize hread).2.2, by decide⟩

/-! ## 5. What is read is written in its own layout -/

namespace Layout

variable {l l' : Layout}

/-- The layout without NULs and flags, where the range of a complete file is that of its table. -/
def normalize (l : Layout) (isComplete : Bool) : Layout :=
  { l with
    nuls := 0
    first := if isComplete then 0 else l.first
    last := if isComplete then l.total - 1 else l.last
    blocks := l.blocks.map Hunk.Block.plain }

theorem Holds.sizes_eq (h : l.Holds file) : l.sizes = file.sizes.map SegmentSize.toWord := by
  have hmap := List.map_congr_left fun word (_ : word ∈ l.sizes) => SegmentSize.toWord_ofWord word
  rw [← h.sizes, List.map_map]
  exact (hmap.trans (List.map_id' l.sizes)).symm

theorem Holds.total_eq (h : l.Holds file) : l.total = UInt32.ofNat file.sizes.length := by
  rw [h.length_sizes, UInt32.ofNat_toNat]

/-- The range that is written is that of the layout, or of the whole table. -/
theorem Holds.declaredRange_eq (h : l.Holds file) : file.declaredRange
    = ((l.normalize file.isComplete).first, (l.normalize file.isComplete).last) := by
  have hextent := h.extent
  unfold Layout.extent at hextent
  by_cases hcount : segmentCount file.hunks = l.total.toNat
  · rw [if_pos hcount] at hextent
    have hinside := UInt32.lt_iff_toNat_lt.1 h.inside
    have hlast : UInt32.ofNat (file.sizes.length - 1) = l.total - 1 := by
      have hle : (1 : UInt32) ≤ l.total := by
        rw [UInt32.le_iff_toNat_le]
        show 1 ≤ l.total.toNat
        omega
      apply UInt32.toNat_inj.1
      rw [UInt32.toNat_sub_of_le _ _ hle, h.length_sizes]
      exact UInt32.toNat_ofNat_of_lt' (Nat.lt_of_le_of_lt (Nat.sub_le _ 1) l.total.toNat_lt)
    unfold declaredRange isComplete normalize
    rw [hextent, ← hlast]
    rfl
  · rw [if_neg hcount] at hextent
    unfold declaredRange isComplete normalize
    rw [hextent]
    rfl

/-- **A file that is read is written in the normal form of its layout.** -/
theorem Holds.layout_eq (h : l.Holds file) : file.layout = l.normalize file.isComplete := by
  unfold HunkFile.layout
  rw [← h.total_eq, ← h.sizes_eq, h.declaredRange_eq, Hunk.Block.map_block h.blocks]
  rfl

/-- **The bytes of a file have only one layout.** -/
theorem eq_of_bytes (h : l.Holds file) (h' : l'.Holds file) (hb : l.bytes = l'.bytes) : l = l' := by
  have htotal : l.total = l'.total := h.total_eq.trans h'.total_eq.symm
  have hsizes : l.sizes = l'.sizes := h.sizes_eq.trans h'.sizes_eq.symm
  unfold bytes header terminator at hb
  rw [htotal, hsizes] at hb
  simp only [List.append_assoc] at hb
  obtain ⟨hcount, hb⟩ := Bytes.append_ofWord32_inj (List.append_cancel_left hb)
  have hnuls : l.nuls = l'.nuls := by
    have hword := congrArg UInt32.toNat hcount
    rw [UInt32.toNat_ofNat_of_lt' h.nuls, UInt32.toNat_ofNat_of_lt' h'.nuls] at hword
    exact hword
  rw [hnuls] at hb
  obtain ⟨hfirst, hb⟩ :=
    Bytes.append_ofWord32_inj (List.append_cancel_left (List.append_cancel_left hb))
  obtain ⟨hlast, hb⟩ := Bytes.append_ofWord32_inj hb
  have hblocks := Hunk.Block.eq_of_bytes h.blocks h'.blocks (List.append_cancel_left hb)
  cases l
  cases l'
  dsimp only at htotal hsizes hnuls hblocks hfirst hlast
  rw [htotal, hsizes, hnuls, hblocks, hfirst, hlast]

theorem length_bytes (l : Layout) : l.bytes.length
    = 20 + l.nuls + 4 * l.sizes.length + (l.blocks.flatMap Hunk.Block.bytes).length := by
  unfold bytes header terminator countWord
  simp only [List.length_append, Bytes.length_ofWord32, List.length_replicate,
    Hunk.length_flatMap_ofWord32]
  omega

end Layout

/-- **Writing undoes reading.** The bytes that are read as a file have exactly one layout that
    stands for it, and the file is written in this layout without its NULs and the flags of its
    tags; the range of a complete file becomes that of its table. Nothing else changes. -/
theorem write_of_parse {data : Bytes} (h : parse data = .ok file) :
    (∃! l : Layout, data = l.bytes ∧ l.Holds file) ∧
      ∀ l : Layout, data = l.bytes → l.Holds file →
        file.write = (l.normalize file.isComplete).bytes ∧
          data.length = file.write.length + l.nuls := by
  constructor
  · obtain ⟨l, hdata, hl⟩ := parse_eq_ok.1 h
    refine ⟨l, ⟨hdata, hl⟩, ?_⟩
    rintro l' ⟨hdata', hl'⟩
    exact Layout.eq_of_bytes hl' hl (hdata'.symm.trans hdata)
  · intro l hdata hl
    have hwrite : file.write = (l.normalize file.isComplete).bytes := by
      rw [write_eq_bytes, hl.layout_eq]
    have hplain := Hunk.Block.length_plain l.blocks
    refine ⟨hwrite, ?_⟩
    rw [hwrite, hdata, Layout.length_bytes, Layout.length_bytes]
    show _ = 20 + 0 + 4 * l.sizes.length
      + ((l.blocks.map Hunk.Block.plain).flatMap Hunk.Block.bytes).length + l.nuls
    omega

/-- Three NULs for no resident library, tags with flags, and relocations that hold no list. -/
def flagged : Layout where
  nuls := 3
  total := 1
  first := 0
  last := 0
  sizes := [0x40000001]
  blocks :=
    [⟨0x400003E9, [0, 0, 0, 1, 0xCA, 0xFE, 0xBA, 0xBE]⟩, ⟨0x3EC, [0, 0, 0, 0]⟩, ⟨0x800003F2, []⟩]

/-- It is read, and written without the NULs and the flags. -/
theorem write_of_parse_flagged :
    ∃ file, parse flagged.bytes = .ok file ∧
      file.write = [0, 0, 3, 0xF3, 0, 0, 0, 0, 0, 0, 0, 1, 0, 0, 0, 0, 0, 0, 0, 0, 0x40, 0, 0, 1,
        0, 0, 3, 0xE9, 0, 0, 0, 1, 0xCA, 0xFE, 0xBA, 0xBE, 0, 0, 3, 0xEC, 0, 0, 0, 0,
        0, 0, 3, 0xF2] := by
  have hblocks : List.Forall₂ Hunk.Block.Holds flagged.blocks
      [.code [0xCA, 0xFE, 0xBA, 0xBE], .reloc32 [], .finish] :=
    .cons ⟨by decide, by decide, by decide⟩ (.cons ⟨by decide, by decide, by decide⟩
      (.cons ⟨by decide, by decide, by decide⟩ .nil))
  have hl : flagged.Holds ⟨.complete, [⟨4, .chip⟩],
      [.code [0xCA, 0xFE, 0xBA, 0xBE], .reloc32 [], .finish]⟩ :=
    ⟨by decide, by decide, by decide, by decide, by decide, hblocks, by decide⟩
  have hread := parse_bytes hl
  exact ⟨_, hread, ((write_of_parse hread).2 flagged rfl hl).1.trans (by decide)⟩

end HunkFile

end AmigaBinary
