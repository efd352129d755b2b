import AmigaBinary.Packer.Unpack
import AmigaBinary.Proofs.Hunk.RoundTrip
import AmigaBinary.Proofs.Decrunch.PowerPacker.RoundTrip

/-!
# Unpacking packed executables

A program is packed by packing the bytes of its file and putting the unpacking code in front of
them, as a hunk file of its own (`Packer.executable`). Such a file is recognised by the length of
its unpacking code and the length that this declares (`Packer.recognize?_executable`), the table of
distance widths is found in the unpacking code (`Packer.offsetTable_of_carries`), and so the program
is got back (`HunkFile.parseUnpacked_executable`).
-/

namespace AmigaBinary

open Decrunch.PowerPacker (OffsetTable Stream pack)

namespace Packer

/-! ## 1. The unpacking code -/

/-- The bytes of a table of distance widths. -/
def tableBytes (table : OffsetTable) : Bytes :=
  [table.first, table.second, table.third, table.fourth]

/-- The table stands in the unpacking code, where the code of this length has it. -/
inductive Carries (stub : Bytes) (table : OffsetTable) : Prop where
  | long (length : stub.length = 632) (table : (stub.drop 0x26C).take 4 = tableBytes table)
  | short (length : stub.length = 548) (table : (stub.drop 540).take 4 = tableBytes table)

/-- The length that the unpacking code declares is possible for the payload. -/
def Declares (stub payload : Bytes) : Prop :=
  ∃ size, Bytes.readWord32 stub 0x20 = .ok size ∧ 4 ≤ size.toNat ∧ size.toNat ≤ payload.length

variable {stub payload : Bytes} {table : OffsetTable}

theorem offsetTable_of_take {offset : Nat} (h : (stub.drop offset).take 4 = tableBytes table) :
    offsetTable stub offset = table := by
  have hbyte : ∀ i < 4, stub.getD (offset + i) 0 = (tableBytes table).getD i 0 := by
    intro i hi
    rw [← h, List.getD_eq_getElem?_getD, List.getD_eq_getElem?_getD, List.getElem?_take_of_lt hi,
      List.getElem?_drop]
  have h0 := hbyte 0 (by decide)
  have h1 := hbyte 1 (by decide)
  have h2 := hbyte 2 (by decide)
  have h3 := hbyte 3 (by decide)
  rw [Nat.add_zero] at h0
  unfold offsetTable
  rw [h0, h1, h2, h3]
  rfl

/-- **The packer of the unpacking code finds the table in it.** -/
theorem offsetTable_of_carries (h : Carries stub table) :
    ∃ packer, ofStubLength? stub.length = some packer ∧
      offsetTable stub packer.tableOffset = table := by
  cases h with
  | long length table => exact ⟨.powerPacker, by rw [length]; rfl, offsetTable_of_take table⟩
  | short length table =>
      exact ⟨.powerPackerShort, by rw [length]; rfl, offsetTable_of_take table⟩

theorem whole_of_carries (h : Carries stub table) : stub.Whole := by
  cases h with
  | long length => exact ⟨by omega, by omega⟩
  | short length => exact ⟨by omega, by omega⟩

theorem declaresPayload_of_declares (h : Declares stub payload) :
    declaresPayload stub payload = true := by
  obtain ⟨size, hread, hmin, hmax⟩ := h
  unfold declaresPayload
  rw [hread]
  exact Bool.and_eq_true_iff.2 ⟨decide_eq_true hmin, decide_eq_true hmax⟩

/-! ## 2. The payload -/

/-- What packed data is made of: words that do not belong to it, the bits that are skipped, and a
    stream. -/
structure Payload where
  front : List UInt32
  skipped : List Bool
  stream : Stream
  deriving DecidableEq, Repr

namespace Payload

/-- The packed data. -/
def bytes (table : OffsetTable) (p : Payload) : Bytes :=
  p.front.flatMap Bytes.ofWord32 ++ pack table p.skipped p.stream

/-- The packed data is made with the table, and stands for some bytes. -/
structure StandsFor (table : OffsetTable) (p : Payload) (data : Bytes) : Prop where
  /-- The number of its longwords fits the count of a data block. -/
  fits : (p.bytes table).length / 4 < 2 ^ 32
  skipped : p.skipped.length < 32
  copies : p.stream.Valid table
  denote : p.stream.denote = data

variable {p : Payload} {data : Bytes}

theorem length_bytes (table : OffsetTable) (p : Payload) : (p.bytes table).length
    = 4 * p.front.length + (pack table p.skipped p.stream).length := by
  rw [bytes, List.length_append, Hunk.length_flatMap_ofWord32]

/-- A stream for less than 2^24 bytes leaves room for nearly all words that a data block can have in
    front of it. -/
theorem fits_of_front (hv : p.stream.Valid table) (hlength : p.stream.length < 2 ^ 24)
    (hfront : p.front.length < 2 ^ 32 - 2 ^ 28) : (p.bytes table).length / 4 < 2 ^ 32 := by
  have hpack := (Decrunch.PowerPacker.length_pack p.skipped hv.copies).2
  rw [length_bytes]
  omega

theorem StandsFor.length_stream (h : p.StandsFor table data) : p.stream.length = data.length := by
  rw [← h.denote]
  exact (p.stream.length_apply []).symm

/-- The data block of a hunk file can hold the packed data. -/
theorem StandsFor.whole (h : p.StandsFor table data) : (p.bytes table).Whole := by
  have hpack := (Decrunch.PowerPacker.length_pack p.skipped h.copies.copies).1
  refine ⟨?_, h.fits⟩
  rw [length_bytes]
  omega

theorem StandsFor.unpack (h : p.StandsFor table data) (hsize : data.length < 2 ^ 24) :
    Decrunch.PowerPacker.unpack table (p.bytes table) = .ok data := by
  have hlength := h.length_stream
  rw [bytes, Decrunch.PowerPacker.unpack_behind h.skipped h.copies (by omega), h.denote]

end Payload

/-! ## 3. Packed executables -/

/-- The hunk file of the unpacking code and the payload. -/
def executable (sizes : List SegmentSize) (stub payload : Bytes) : HunkFile :=
  ⟨.complete, sizes, [.code stub, .finish, .data payload, .finish]⟩

/-- **A packed executable is recognised.** -/
theorem recognize?_executable {sizes : List SegmentSize} {packer : Packer}
    (hp : ofStubLength? stub.length = some packer) (hd : Declares stub payload) :
    recognize? (executable sizes stub payload) = some (.powerPacker packer stub payload) := by
  unfold recognize? executable
  dsimp only
  rw [hp]
  dsimp only
  rw [if_pos (declaresPayload_of_declares hd)]

/-- A packed executable of whole longwords can be written. -/
theorem wellFormed_executable {sizes : List SegmentSize} (hsizes : sizes.length = 2)
    (hs : stub.Whole) (hp : payload.Whole) : (executable sizes stub payload).WellFormed where
  nonempty := by
    show 1 ≤ sizes.length
    omega
  sizes := by
    show sizes.length < 0x100000000
    omega
  hunks hunk hmem := by
    refine Hunk.fits_of_canonical ?_
    simp only [executable, List.mem_cons, List.not_mem_nil, or_false] at hmem
    rcases hmem with rfl | rfl | rfl | rfl
    · exact hs
    · trivial
    · exact hp
    · trivial
  extent := hsizes.symm

/-- Whole longwords are not padded. -/
theorem normalize_executable {sizes : List SegmentSize} (hs : stub.Whole) (hp : payload.Whole) :
    (executable sizes stub payload).normalize
      = executable (sizes.map SegmentSize.rounded) stub payload := by
  show HunkFile.mk .complete _ [.code (Bytes.padToLong stub), .finish,
    .data (Bytes.padToLong payload), .finish] = _
  rw [Bytes.padToLong_of_whole hs.1, Bytes.padToLong_of_whole hp.1]
  rfl

end Packer

/-! ## 4. The program inside -/

namespace HunkFile

open Packer

variable {file : HunkFile}

theorem unpack_of_contents {packed : Packed} {bytes : Bytes} {program : HunkFile}
    (hr : recognize? file = some packed) (hc : packed.contents = .ok bytes)
    (hp : parse bytes = .ok program) : unpack file = .ok program := by
  unfold unpack
  rw [hr]
  dsimp only
  refine bind_eq_ok.2 ⟨bytes, hc, ?_⟩
  rw [hp]
  rfl

theorem parse_executable {stub payload : Bytes} {sizes : List SegmentSize}
    (hsizes : sizes.length = 2) (hs : stub.Whole) (hp : payload.Whole) :
    parse (executable sizes stub payload).write
      = .ok (executable (sizes.map SegmentSize.rounded) stub payload) := by
  have hread := (wellFormed_executable hsizes hs hp).read
  rwa [normalize_executable hs hp] at hread

theorem unpack_executable {data stub : Bytes} {table : OffsetTable} {p : Payload}
    {sizes : List SegmentSize} (hparse : parse data = .ok file) (hsize : data.length < 2 ^ 24)
    (hp : p.StandsFor table data) (hcarries : Carries stub table)
    (hdeclares : Declares stub (p.bytes table)) :
    (executable sizes stub (p.bytes table)).unpack = .ok file := by
  obtain ⟨packer, hpacker, htable⟩ := offsetTable_of_carries hcarries
  have hcontents : (Packed.powerPacker packer stub (p.bytes table)).contents = .ok data := by
    unfold Packed.contents
    dsimp only
    rw [htable, hp.unpack hsize]
  exact unpack_of_contents (recognize?_executable hpacker hdeclares) hcontents hparse

/-- **A packed executable is the program that it was made of**: with any unpacking code of either
    length that carries the table and declares a possible length, and any packed data that stands
    for the file of the program. -/
theorem parseUnpacked_executable {data stub : Bytes} {table : OffsetTable} {p : Payload}
    {sizes : List SegmentSize} (hparse : parse data = .ok file)
    (hsize : file.write.length < 2 ^ 24) (hp : p.StandsFor table file.write)
    (hcarries : Carries stub table) (hdeclares : Declares stub (p.bytes table))
    (hsizes : sizes.length = 2) :
    parseUnpacked (executable sizes stub (p.bytes table)).write = .ok file := by
  have houter := parse_executable hsizes (whole_of_carries hcarries) hp.whole
  unfold parseUnpacked
  rw [houter]
  exact unpack_executable (parse_again hparse) hsize hp hcarries hdeclares

/-- A program of two instructions. -/
def idle : HunkFile :=
  ⟨.complete, [⟨4, .any⟩], [.code [0x70, 0, 0x4E, 0x75], .finish]⟩

/-- Its file, with copies of all shapes between the literal bytes, behind a word that does not
    belong to it. -/
def idlePacked : Payload where
  front := [0xDEADBEEF]
  skipped := [true, false, true]
  stream :=
    ⟨[⟨[0xF2, 3, 0, 0, 0x75, 0x4E, 0, 0x70, 1, 0], ⟨.two, 0⟩⟩, ⟨[0xE9], ⟨.three, 11⟩⟩,
      ⟨[], ⟨.four, 7⟩⟩, ⟨[], ⟨.many false 8, 0⟩⟩, ⟨[], ⟨.many true 8, 11⟩⟩], [0xF3, 3, 0, 0]⟩

/-- A short unpacking code with nothing but the declared length and the table. -/
def bareStub : Bytes :=
  List.replicate 0x20 0 ++ [0, 0, 0, 4] ++ List.replicate 504 0 ++ [9, 10, 11, 12, 0, 0, 0, 0]

theorem length_bareStub : bareStub.length = 548 := by
  simp only [bareStub, List.length_append, List.length_replicate, List.length_cons,
    List.length_nil]

theorem carries_bareStub : Carries bareStub ⟨9, 10, 11, 12⟩ := by
  refine .short length_bareStub ?_
  -- the table stands behind all of the rest
  rw [bareStub, List.drop_append, List.drop_of_length_le]
  · simp only [List.length_append, List.length_replicate, List.length_cons, List.length_nil]
    rfl
  · simp only [List.length_append, List.length_replicate, List.length_cons, List.length_nil]
    decide

/-- The length that it declares is possible for every packed data. -/
theorem declares_bareStub (table : OffsetTable) (p : Payload) :
    Declares bareStub (p.bytes table) := by
  have hfour : (4 : UInt32).toNat = 4 := rfl
  refine ⟨4, rfl, le_refl 4, ?_⟩
  rw [hfour, Payload.bytes, Decrunch.PowerPacker.pack, List.length_append,
    Decrunch.length_writeBackward, List.length_cons]
  omega

/-- It is got back. -/
theorem parseUnpacked_executable_idle :
    parseUnpacked (executable [⟨548, .any⟩, ⟨0x4000, .any⟩] bareStub
      (idlePacked.bytes ⟨9, 10, 11, 12⟩)).write = .ok idle := by
  have hparse : parse idle.layout.bytes = .ok idle :=
    parse_bytes (WellFormed.layout_holds ⟨by decide, by decide, by decide, by decide⟩)
  have hv : idlePacked.stream.Valid ⟨9, 10, 11, 12⟩ := ⟨by decide, by decide⟩
  have hp : idlePacked.StandsFor ⟨9, 10, 11, 12⟩ idle.write :=
    ⟨Payload.fits_of_front hv (by decide) (by decide), by decide, hv, by decide⟩
  exact parseUnpacked_executable hparse (by decide) hp carries_bareStub (declares_bareStub _ _) rfl

end HunkFile

end AmigaBinary
