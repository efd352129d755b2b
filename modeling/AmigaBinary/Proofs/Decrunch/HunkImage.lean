import AmigaBinary.Decrunch.HunkImage
import AmigaBinary.Proofs.Hunk.RoundTrip
import Mathlib.Data.Nat.Bitwise

/-!
# The hunk file of an image

An image is taken for a hunk file exactly if it consists of the parts that it announces (`Image`):
as many sizes and records as its first word counts, each record with a type that marks a segment and
as many longwords as it says, and the final word behind them, with nothing else
(`toHunkFile_eq_ok`).
The file is complete, has the sizes of the image, and for each record a segment with its end mark.
It is written and read back as it is, and nothing of the image is lost in it but the low bits of the
types (`toHunkBytes_image`).
-/

namespace AmigaBinary.Decrunch.HunkImage

/-! ## 1. The parts of an image -/

/-- A record: a type word, of which bit 14 is set, and longwords, of which a word can tell the
    number. -/
structure Record where
  type : UInt16
  longs : List UInt32
  marked : type.toNat.testBit 14 = true
  counted : longs.length < 0x10000

namespace Record

/-- The contents of the segment. -/
def body (r : Record) : Bytes :=
  r.longs.flatMap Bytes.ofWord32

/-- A record as it stands in an image. -/
def bytes (r : Record) : Bytes :=
  Bytes.ofWord16 r.type ++ (Bytes.ofWord16 (UInt16.ofNat r.longs.length) ++ r.body)

/-- The segment of a record. Bit 15 of the type tells data from code. -/
def segment (r : Record) : Hunk :=
  if r.type.toNat.testBit 15 then .data r.body else .code r.body

/-- The segment and its end mark. -/
def hunks (r : Record) : List Hunk :=
  [r.segment, .finish]

/-- The bits of the type that do not show in the segment. -/
def lowBits (r : Record) : Nat :=
  r.type.toNat % 0x4000

end Record

/-- An image: a table of sizes, and a record for each entry of it. A word can tell the number. -/
structure Image where
  sizes : List UInt32
  records : List Record
  nonempty : 1 ≤ sizes.length
  counted : sizes.length < 0x100000000
  complete : records.length = sizes.length

namespace Image

/-- The first word is one less than the number of segments. -/
def bytes (i : Image) : Bytes :=
  countWord (i.sizes.length - 1) ++ (i.sizes.flatMap Bytes.ofWord32
    ++ (i.records.flatMap Record.bytes ++ [0xFF, 0xFF]))

/-- The hunk file with the segments of an image. -/
def file (i : Image) : HunkFile :=
  ⟨.complete, i.sizes.map .ofWord, i.records.flatMap Record.hunks⟩

end Image

/-! ## 2. Types -/

theorem and_bit_eq_zero {type : UInt16} {i : Nat} (hi : i < 16) :
    type &&& UInt16.ofNat (2 ^ i) = 0 ↔ type.toNat.testBit i = false := by
  have hlt : 2 ^ i < UInt16.size := Nat.pow_lt_pow_right (by decide) hi
  have hand : (type &&& UInt16.ofNat (2 ^ i)).toNat = (type.toNat.testBit i).toNat * 2 ^ i := by
    rw [UInt16.toNat_and, UInt16.toNat_ofNat_of_lt' hlt, Nat.and_two_pow]
  rw [← UInt16.toNat_inj, hand]
  show _ = 0 ↔ _
  have hpos := Nat.two_pow_pos i
  cases type.toNat.testBit i with
  | false => simp
  | true => simp

theorem segmentOf_eq (r : Record) : segmentOf r.type r.body = r.segment := by
  unfold segmentOf Record.segment
  have hbit : r.type &&& 0x8000 = 0 ↔ _ := and_bit_eq_zero (by decide : 15 < 16)
  cases h : r.type.toNat.testBit 15 with
  | false => rw [if_pos (hbit.2 h), if_neg Bool.noConfusion]
  | true => rw [if_neg (fun h0 => by rw [hbit.1 h0] at h; cases h), if_pos rfl]

/-- A type word is its two highest bits, of which one is set, above the low ones. -/
theorem type_eq (r : Record) :
    r.type = UInt16.ofNat ((if r.type.toNat.testBit 15 then 0xC000 else 0x4000) + r.lowBits) := by
  have hlt := r.type.toNat_lt
  have h14 := r.marked
  have h15 : r.type.toNat.testBit 15 = decide (r.type.toNat / 2 ^ 15 % 2 = 1) :=
    Nat.testBit_eq_decide_div_mod_eq
  rw [Nat.testBit_eq_decide_div_mod_eq, decide_eq_true_eq] at h14
  have hnat : (if r.type.toNat.testBit 15 then 0xC000 else 0x4000) + r.lowBits
      = r.type.toNat := by
    rw [h15, Record.lowBits]
    simp only [decide_eq_true_eq]
    split <;> omega
  rw [hnat, UInt16.ofNat_toNat]

/-! ## 3. Reading an image -/

variable {c next : Cursor}

/-- **A record is read where it stands**, and nothing else is read as one. -/
theorem readRecord_eq_ok {hunk : Hunk} :
    readRecord c = .ok (hunk, next) ↔ ∃ r : Record, hunk = r.segment ∧ c.Reads r.bytes next := by
  unfold readRecord
  constructor
  · intro h
    obtain ⟨⟨type, c1⟩, htype, h⟩ := bind_eq_ok.1 h
    obtain ⟨⟨count, c2⟩, hcount, h⟩ := bind_eq_ok.1 h
    obtain ⟨⟨body, c3⟩, hbody, h⟩ := bind_eq_ok.1 h
    obtain ⟨hlen, hbody⟩ := Cursor.take_eq_ok.1 hbody
    obtain ⟨hbytes, hlongs⟩ := Hunk.flatMap_wordsOf hlen
    dsimp only at h
    split at h
    · cases h
    · rename_i hmark
      obtain ⟨rfl, rfl⟩ := Prod.mk.inj (Except.ok.inj h)
      have hmarked : type.toNat.testBit 14 = true :=
        Bool.of_not_eq_false fun h0 => hmark ((and_bit_eq_zero (by decide : 14 < 16)).2 h0)
      let r : Record := ⟨type, Hunk.wordsOf body, hmarked, hlongs ▸ count.toNat_lt⟩
      have hr : r.body = body := hbytes
      refine ⟨r, ?_, ?_⟩
      · rw [← segmentOf_eq, hr]
      · rw [Record.bytes, hr, show r.longs.length = count.toNat from hlongs, UInt16.ofNat_toNat]
        exact (Cursor.word16_eq_ok.1 htype).trans ((Cursor.word16_eq_ok.1 hcount).trans hbody)
  · rintro ⟨r, rfl, hr⟩
    obtain ⟨c1, htype, hr⟩ := Cursor.reads_append.1 hr
    obtain ⟨c2, hcount, hbody⟩ := Cursor.reads_append.1 hr
    have hlen : r.body.length = 4 * (UInt16.ofNat r.longs.length).toNat := by
      rw [UInt16.toNat_ofNat_of_lt' r.counted, Record.body, Hunk.length_flatMap_ofWord32]
    have hmark : ¬ r.type &&& 0x4000 = 0 := fun h0 => by
      have hbit := (and_bit_eq_zero (by decide : 14 < 16)).1 h0
      rw [r.marked] at hbit
      cases hbit
    refine bind_eq_ok.2 ⟨_, Cursor.word16_eq_ok.2 htype, ?_⟩
    refine bind_eq_ok.2 ⟨_, Cursor.word16_eq_ok.2 hcount, ?_⟩
    refine bind_eq_ok.2 ⟨_, Cursor.take_eq_ok.2 ⟨hlen, hbody⟩, ?_⟩
    dsimp only
    rw [if_neg hmark, segmentOf_eq]

/-- **So many records are read where they stand**, one behind the other. -/
theorem readRecords_eq_ok {count : Nat} {hunks : List Hunk} :
    readRecords count c = .ok (hunks, next) ↔
      ∃ records : List Record, records.length = count ∧ hunks = records.flatMap Record.hunks ∧
        c.Reads (records.flatMap Record.bytes) next := by
  induction count generalizing c hunks with
  | zero =>
      rw [readRecords]
      constructor
      · intro h
        obtain ⟨rfl, rfl⟩ := Prod.mk.inj (Except.ok.inj h)
        exact ⟨[], rfl, rfl, Cursor.reads_nil.2 rfl⟩
      · rintro ⟨records, hlen, rfl, hr⟩
        obtain rfl := List.length_eq_zero_iff.1 hlen
        rw [Cursor.reads_nil.1 hr]
        rfl
  | succ count ih =>
      rw [readRecords]
      constructor
      · intro h
        obtain ⟨⟨segment, d⟩, hsegment, h⟩ := bind_eq_ok.1 h
        obtain ⟨⟨rest, d'⟩, hrest, h⟩ := bind_eq_ok.1 h
        obtain ⟨rfl, rfl⟩ := Prod.mk.inj (Except.ok.inj h)
        obtain ⟨r, rfl, hr⟩ := readRecord_eq_ok.1 hsegment
        obtain ⟨records, hlen, rfl, hrs⟩ := ih.1 hrest
        exact ⟨r :: records, congrArg (· + 1) hlen, rfl, hr.trans hrs⟩
      · rintro ⟨records, hlen, rfl, hr⟩
        cases records with
        | nil => cases hlen
        | cons r records =>
            obtain ⟨d, hr, hrs⟩ := Cursor.reads_append.1 hr
            refine bind_eq_ok.2 ⟨_, readRecord_eq_ok.2 ⟨r, rfl, hr⟩, ?_⟩
            exact bind_eq_ok.2 ⟨_, ih.2 ⟨records, Nat.succ.inj hlen, rfl, hrs⟩, rfl⟩

/-- The first word of an image tells one less than the number of its sizes. -/
theorem toNat_last (i : Image) :
    (UInt32.ofNat (i.sizes.length - 1)).toNat + 1 = i.sizes.length := by
  have hpos := i.nonempty
  have hlt := i.counted
  rw [UInt32.toNat_ofNat_of_lt' (by simp only [UInt32.size]; omega)]
  omega

theorem last_ne_max (i : Image) : UInt32.ofNat (i.sizes.length - 1) ≠ 0xFFFFFFFF := by
  intro he
  have hlast := toNat_last i
  have hlt := i.counted
  rw [he] at hlast
  have hall : (0xFFFFFFFF : UInt32).toNat = 0xFFFFFFFF := rfl
  omega

/-- What is read is an image. -/
theorem exists_image_of_toHunkFile {image : Bytes} {file : HunkFile}
    (h : toHunkFile image = .ok file) : ∃ i : Image, image = i.bytes ∧ file = i.file := by
  obtain ⟨last, c1, hlast, h⟩ := Cursor.word32_bind_eq_ok.1 h
  dsimp only at h
  by_cases hmax : last = 0xFFFFFFFF
  · rw [if_pos hmax] at h
    cases h
  rw [if_neg hmax] at h
  obtain ⟨⟨table, c2⟩, htable, h⟩ := bind_eq_ok.1 h
  obtain ⟨⟨hunks, c3⟩, hhunks, h⟩ := bind_eq_ok.1 h
  dsimp only at h
  by_cases hend : c3.rest = [0xFF, 0xFF]
  · rw [if_pos hend] at h
    obtain rfl := Except.ok.inj h
    obtain ⟨hlen, htable⟩ := Cursor.take_eq_ok.1 htable
    obtain ⟨hbytes, hsizes⟩ := Hunk.flatMap_wordsOf hlen
    obtain ⟨records, hrecords, rfl, hrs⟩ := readRecords_eq_ok.1 hhunks
    have hlt : last.toNat + 1 < 0x100000000 := by
      have hne : last.toNat ≠ 0xFFFFFFFF := fun he => hmax (UInt32.toNat_inj.1 he)
      have := last.toNat_lt
      omega
    let i : Image := ⟨Hunk.wordsOf table, records, by omega, by omega, by omega⟩
    refine ⟨i, ?_, rfl⟩
    have hcount : countWord (i.sizes.length - 1) = Bytes.ofWord32 last := by
      rw [show i.sizes.length = last.toNat + 1 from hsizes, Nat.add_sub_cancel,
        Hunk.countWord_toNat]
    rw [Image.bytes, hcount, show i.sizes.flatMap Bytes.ofWord32 = table from hbytes, ← hend]
    have hall := (Cursor.reads_start.1 ((hlast.trans htable).trans hrs)).1
    rw [hall]
    simp only [List.append_assoc]
    rfl
  · rw [if_neg hend] at h
    cases h

/-- The parts of an image stand in it one behind the other. -/
theorem reads_image (i : Image) : ∃ c : Cursor, c.rest = [0xFF, 0xFF] ∧
    (Cursor.start i.bytes).Reads (countWord (i.sizes.length - 1)
      ++ (i.sizes.flatMap Bytes.ofWord32 ++ i.records.flatMap Record.bytes)) c := by
  refine ⟨⟨[0xFF, 0xFF], _⟩, rfl, ?_, rfl⟩
  show i.bytes = _
  rw [Image.bytes]
  simp only [List.append_assoc]

/-- An image is read. -/
theorem toHunkFile_bytes (i : Image) : toHunkFile i.bytes = .ok i.file := by
  obtain ⟨c, hend, hstart⟩ := reads_image i
  obtain ⟨c1, hword, hrest⟩ := Cursor.reads_append.1 hstart
  obtain ⟨c2, htable, hrs⟩ := Cursor.reads_append.1 hrest
  refine Cursor.word32_bind_eq_ok.2 ⟨_, c1, hword, ?_⟩
  dsimp only
  rw [if_neg (last_ne_max i), toNat_last i]
  refine bind_eq_ok.2 ⟨_, Cursor.take_eq_ok.2 ⟨Hunk.length_flatMap_ofWord32 _, htable⟩, ?_⟩
  refine bind_eq_ok.2 ⟨_, readRecords_eq_ok.2 ⟨i.records, i.complete, rfl, hrs⟩, ?_⟩
  dsimp only
  rw [if_pos hend, Hunk.wordsOf_flatMap]
  rfl

/-- **An image is read from its parts**, and nothing else is read as one. -/
theorem toHunkFile_eq_ok {image : Bytes} {file : HunkFile} :
    toHunkFile image = .ok file ↔ ∃ i : Image, image = i.bytes ∧ file = i.file := by
  constructor
  · exact exists_image_of_toHunkFile
  · rintro ⟨i, rfl, rfl⟩
    exact toHunkFile_bytes i

/-! ## 4. The file of an image -/

theorem canonical_segment (r : Record) : r.segment.Canonical := by
  have hlen := Hunk.length_flatMap_ofWord32 r.longs
  have hcounted := r.counted
  have hwhole : r.body.Whole := by
    show (r.longs.flatMap Bytes.ofWord32).length % 4 = 0 ∧ _
    rw [Record.body]
    omega
  unfold Record.segment
  split
  · exact hwhole
  · exact hwhole

theorem isSegment_segment (r : Record) : r.segment.isSegment = true := by
  unfold Record.segment
  split <;> rfl

/-- The segments of an image are those of its records. -/
theorem filter_hunks (records : List Record) :
    (records.flatMap Record.hunks).filter Hunk.isSegment = records.map Record.segment := by
  induction records with
  | nil => rfl
  | cons r records ih =>
      rw [List.flatMap_cons, List.filter_append, ih, Record.hunks,
        List.filter_cons_of_pos (isSegment_segment r), List.filter_cons_of_neg Bool.noConfusion]
      rfl

theorem Image.canonical (i : Image) : ∀ hunk ∈ i.file.hunks, hunk.Canonical := by
  intro hunk hmem
  obtain ⟨r, -, hhunk⟩ := List.mem_flatMap.1 hmem
  rcases List.mem_cons.1 hhunk with rfl | hfinish
  · exact canonical_segment r
  · rw [List.mem_singleton.1 hfinish]
    trivial

theorem Image.wellFormed (i : Image) : i.file.WellFormed where
  nonempty := by
    show 1 ≤ (i.sizes.map _).length
    rw [List.length_map]
    exact i.nonempty
  sizes := by
    show (i.sizes.map _).length < 0x100000000
    rw [List.length_map]
    exact i.counted
  hunks hunk hmem := Hunk.fits_of_canonical (i.canonical hunk hmem)
  extent := by
    show HunkFile.segmentCount (i.records.flatMap Record.hunks) = (i.sizes.map _).length
    rw [HunkFile.segmentCount, List.countP_eq_length_filter, filter_hunks, List.length_map,
      List.length_map, i.complete]

theorem Image.normalize_file (i : Image) : i.file.normalize = i.file := by
  have hhunks := List.map_congr_left fun hunk hmem =>
    Hunk.normalize_of_canonical (i.canonical hunk hmem)
  have hsizes : (i.sizes.map SegmentSize.ofWord).map SegmentSize.rounded
      = i.sizes.map SegmentSize.ofWord := by
    rw [List.map_map]
    exact List.map_congr_left fun word _ => SegmentSize.rounded_ofWord word
  unfold HunkFile.normalize
  rw [hhunks, List.map_id']
  show HunkFile.mk _ ((i.sizes.map SegmentSize.ofWord).map SegmentSize.rounded) _ = _
  rw [hsizes]
  rfl

/-- **The file of an image is read back** after it was written. -/
theorem Image.parse_file (i : Image) : HunkFile.parse i.file.write = .ok i.file := by
  rw [i.wellFormed.read, i.normalize_file]

/-! ## 5. The image of a file -/

/-- The record of a segment, with the given low bits in its type word. -/
def recordOf (lowBits : Nat) (segment : Hunk) : Bytes :=
  let body := segment.body?.getD []
  Bytes.ofWord16 (UInt16.ofNat ((if segment.kind = .data then 0xC000 else 0x4000) + lowBits))
    ++ (Bytes.ofWord16 (UInt16.ofNat (body.length / 4)) ++ body)

/-- The image of a complete hunk file, with the given low bits in the type words of its records. -/
def imageOf (lowBits : List Nat) (file : HunkFile) : Bytes :=
  countWord (file.sizes.length - 1)
    ++ (file.sizes.flatMap (fun size => Bytes.ofWord32 size.toWord)
    ++ ((List.zipWith recordOf lowBits (file.hunks.filter Hunk.isSegment)).flatten
    ++ [0xFF, 0xFF]))

theorem recordOf_segment (r : Record) : recordOf r.lowBits r.segment = r.bytes := by
  have hbody : r.segment.body?.getD [] = r.body := by
    unfold Record.segment
    split <;> rfl
  have hkind : r.segment.kind = .data ↔ r.type.toNat.testBit 15 = true := by
    unfold Record.segment
    cases r.type.toNat.testBit 15 with
    | false => exact ⟨fun h => HunkKind.noConfusion h, Bool.noConfusion⟩
    | true => exact ⟨fun _ => rfl, fun _ => rfl⟩
  have hcount : r.body.length / 4 = r.longs.length := by
    rw [Record.body, Hunk.length_flatMap_ofWord32]
    omega
  simp only [recordOf, hbody, hcount, hkind]
  rw [← type_eq, Record.bytes]

/-- **Nothing of an image is lost but the low bits of its types.** -/
theorem Image.imageOf_file (i : Image) :
    imageOf (i.records.map Record.lowBits) i.file = i.bytes := by
  have hsizes : (i.sizes.map SegmentSize.ofWord).flatMap (fun size => Bytes.ofWord32 size.toWord)
      = i.sizes.flatMap Bytes.ofWord32 := by
    rw [List.flatMap_map]
    congr 1
    funext word
    rw [SegmentSize.toWord_ofWord]
  have hrecords : (List.zipWith recordOf (i.records.map Record.lowBits)
      (i.file.hunks.filter Hunk.isSegment)).flatten = i.records.flatMap Record.bytes := by
    show (List.zipWith recordOf _ ((i.records.flatMap Record.hunks).filter _)).flatten = _
    rw [filter_hunks, List.zipWith_map, List.zipWith_self, List.flatMap_def]
    congr 1
    exact List.map_congr_left fun r _ => recordOf_segment r
  unfold imageOf
  rw [hrecords]
  show countWord ((i.sizes.map _).length - 1) ++ ((i.sizes.map _).flatMap _ ++ _) = _
  rw [List.length_map, hsizes, Image.bytes]

/-- **An image becomes a hunk file exactly if it has the parts that it announces**, and nothing
    else. The file is complete, with the sizes of the image and the segment and the end mark of each
    record; it is read back as it is, and gives the image again, but for the low 14 bits of the
    types. -/
theorem toHunkBytes_image :
    (∀ image b : Bytes, toHunkBytes image = .ok b ↔
      ∃ i : Image, image = i.bytes ∧ b = i.file.write) ∧
      ∀ i : Image, HunkFile.parse i.file.write = .ok i.file ∧
        imageOf (i.records.map Record.lowBits) i.file = i.bytes := by
  refine ⟨fun image b => ?_, fun i => ⟨i.parse_file, i.imageOf_file⟩⟩
  rw [toHunkBytes, map_eq_ok]
  constructor
  · rintro ⟨file, hfile, rfl⟩
    obtain ⟨i, hi, rfl⟩ := toHunkFile_eq_ok.1 hfile
    exact ⟨i, hi, rfl⟩
  · rintro ⟨i, hi, rfl⟩
    exact ⟨i.file, toHunkFile_eq_ok.2 ⟨i, hi, rfl⟩, rfl⟩

/-- A code record whose type has low bits, and a data record without contents. -/
example : toHunkBytes [0, 0, 0, 1, 0x40, 0, 0, 1, 0, 0, 0, 0, 0x40, 3, 0, 1, 0x4E, 0x75, 0x4E, 0x71,
      0xC0, 0, 0, 0, 0xFF, 0xFF]
    = .ok (HunkFile.write ⟨.complete, [⟨4, .chip⟩, ⟨0, .any⟩],
        [.code [0x4E, 0x75, 0x4E, 0x71], .finish, .data [], .finish]⟩) := by decide

end AmigaBinary.Decrunch.HunkImage
