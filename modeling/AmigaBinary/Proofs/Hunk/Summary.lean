import AmigaBinary.Hunk.Summary
import AmigaBinary.Proofs.Hunk.RoundTrip

/-!
# The lines of a summary

Each block has one line, and a segment that stands behind `k` other segments takes entry `k` of the
size table (`getElem?_summarize`). The table has all segments of the program, so in a range the
entry of this segment is `k` entries behind that of the first segment of the range. The two have
the same memory type in a complete file, but not in every range (`summary_of_parse`).
-/

namespace AmigaBinary

open HunkFile

/-! ## 1. Lines -/

/-- The line of a block with the number `index`. -/
def Hunk.line (hunk : Hunk) (index : Nat) (memory : Option MemoryType) : HunkSummary :=
  ⟨index, hunk.kind, (hunk.body?.getD []).length, memory, hunk.relocationCount⟩

/-- The memory type of an entry of the size table. -/
def entryMemory (sizes : List SegmentSize) (entry : Nat) : Option MemoryType :=
  sizes[entry]?.map (·.memory)

theorem entryMemory_tail (sizes : List SegmentSize) (entry : Nat) :
    entryMemory sizes.tail entry = entryMemory sizes (entry + 1) := by
  unfold entryMemory
  rw [List.getElem?_tail]

theorem segmentCount_cons_of_segment {hunk : Hunk} (h : hunk.isSegment) (hunks : List Hunk) :
    segmentCount (hunk :: hunks) = segmentCount hunks + 1 :=
  List.countP_cons_of_pos h

theorem segmentCount_cons_of_not_segment {hunk : Hunk} (h : ¬ hunk.isSegment)
    (hunks : List Hunk) : segmentCount (hunk :: hunks) = segmentCount hunks :=
  List.countP_cons_of_neg h

theorem summarize_cons_of_segment {hunk : Hunk} (h : hunk.isSegment) (hunks : List Hunk)
    (index : Nat) (sizes : List SegmentSize) : summarize (hunk :: hunks) index sizes
      = hunk.line index (entryMemory sizes 0) :: summarize hunks (index + 1) sizes.tail := by
  rw [summarize, if_pos h, entryMemory, List.head?_eq_getElem?]
  rfl

theorem summarize_cons_of_not_segment {hunk : Hunk} (h : ¬ hunk.isSegment) (hunks : List Hunk)
    (index : Nat) (sizes : List SegmentSize) : summarize (hunk :: hunks) index sizes
      = hunk.line index none :: summarize hunks (index + 1) sizes := by
  rw [summarize, if_neg h]
  rfl

/-- The memory type of block number `i`, if the segments take the entries from number `first` on:
    those in front of the block took as many. -/
def memoryFrom (first : Nat) (hunks : List Hunk) (sizes : List SegmentSize) (i : Nat)
    (hunk : Hunk) : Option MemoryType :=
  if hunk.isSegment then entryMemory sizes (first + segmentCount (hunks.take i)) else none

/-- **The lines of a summary.** The segments take the entries of the table from its start on. -/
theorem getElem?_summarize (hunks : List Hunk) (index : Nat) (sizes : List SegmentSize) (i : Nat) :
    (summarize hunks index sizes)[i]?
      = hunks[i]?.map fun hunk => hunk.line (index + i) (memoryFrom 0 hunks sizes i hunk) := by
  induction hunks generalizing index sizes i with
  | nil => rfl
  | cons hunk hunks ih =>
      by_cases hsegment : hunk.isSegment
      · rw [summarize_cons_of_segment hsegment]
        cases i with
        | zero =>
            rw [List.getElem?_cons_zero, List.getElem?_cons_zero, Option.map_some, memoryFrom,
              if_pos hsegment]
            rfl
        | succ i =>
            rw [List.getElem?_cons_succ, List.getElem?_cons_succ, ih, Nat.add_right_comm,
              Nat.add_assoc]
            -- the entry that this segment took is not counted in the rest of the table
            unfold memoryFrom
            rw [List.take_succ_cons, segmentCount_cons_of_segment hsegment, entryMemory_tail,
              Nat.add_assoc]
      · rw [summarize_cons_of_not_segment hsegment]
        cases i with
        | zero =>
            rw [List.getElem?_cons_zero, List.getElem?_cons_zero, Option.map_some, memoryFrom,
              if_neg hsegment]
            rfl
        | succ i =>
            rw [List.getElem?_cons_succ, List.getElem?_cons_succ, ih, Nat.add_right_comm,
              Nat.add_assoc]
            unfold memoryFrom
            rw [List.take_succ_cons, segmentCount_cons_of_not_segment hsegment]

/-- Segment number `k` is a block with `k` segments in front of it. -/
theorem exists_segment {hunks : List Hunk} {k : Nat} (h : k < segmentCount hunks) :
    ∃ i hunk, hunks[i]? = some hunk ∧ hunk.isSegment ∧ segmentCount (hunks.take i) = k := by
  induction hunks generalizing k with
  | nil => cases h
  | cons hunk hunks ih =>
      by_cases hsegment : hunk.isSegment
      · cases k with
        | zero => exact ⟨0, hunk, rfl, hsegment, rfl⟩
        | succ k =>
            rw [segmentCount_cons_of_segment hsegment] at h
            obtain ⟨i, hunk', hget, hsegment', hcount⟩ := ih (Nat.lt_of_succ_lt_succ h)
            refine ⟨i + 1, hunk', hget, hsegment', ?_⟩
            rw [List.take_succ_cons, segmentCount_cons_of_segment hsegment, hcount]
      · rw [segmentCount_cons_of_not_segment hsegment] at h
        obtain ⟨i, hunk', hget, hsegment', hcount⟩ := ih h
        refine ⟨i + 1, hunk', hget, hsegment', ?_⟩
        rw [List.take_succ_cons, segmentCount_cons_of_not_segment hsegment, hcount]

theorem segmentCount_take_lt {hunks : List Hunk} {i : Nat} {hunk : Hunk}
    (hget : hunks[i]? = some hunk) (hsegment : hunk.isSegment) :
    segmentCount (hunks.take i) < segmentCount hunks := by
  obtain ⟨hlt, rfl⟩ := List.getElem?_eq_some_iff.1 hget
  have hsum := segmentCount_take_add_drop hunks i
  rw [List.drop_eq_getElem_cons hlt, segmentCount_cons_of_segment hsegment] at hsum
  omega

/-! ## 2. The table of a file -/

namespace HunkFile

variable {file : HunkFile}

/-- The number of the first segment in the file. -/
def firstSegment (file : HunkFile) : Nat :=
  match file.extent with
  | .complete => 0
  | .range first _ => first.toNat

/-- The summary gives each segment the memory type of its own entry of the table, and no other
    block one. -/
def MatchesTable (file : HunkFile) : Prop :=
  ∀ i hunk, file.hunks[i]? = some hunk → file.summary[i]?.map (·.memory)
    = some (memoryFrom file.firstSegment file.hunks file.sizes i hunk)

theorem getElem?_summary (file : HunkFile) (i : Nat) : file.summary[i]?
    = file.hunks[i]?.map fun hunk => hunk.line i (memoryFrom 0 file.hunks file.sizes i hunk) := by
  unfold summary
  rw [getElem?_summarize]
  congr 1
  funext hunk
  rw [Nat.zero_add]

theorem memory_summary {i : Nat} {hunk : Hunk} (hget : file.hunks[i]? = some hunk) :
    file.summary[i]?.map (·.memory) = some (memoryFrom 0 file.hunks file.sizes i hunk) := by
  rw [getElem?_summary, hget]
  rfl

/-- **The summary matches the table exactly if the first entries have the memory types of those
    of the range.** -/
theorem matchesTable_iff : file.MatchesTable ↔ ∀ k < segmentCount file.hunks,
    entryMemory file.sizes k = entryMemory file.sizes (file.firstSegment + k) := by
  constructor
  · intro hmatch k hk
    obtain ⟨i, hunk, hget, hsegment, rfl⟩ := exists_segment hk
    have hmemory := (memory_summary hget).symm.trans (hmatch i hunk hget)
    rw [Option.some.injEq] at hmemory
    unfold memoryFrom at hmemory
    rw [if_pos hsegment, if_pos hsegment, Nat.zero_add] at hmemory
    exact hmemory
  · intro hentries i hunk hget
    rw [memory_summary hget]
    congr 1
    unfold memoryFrom
    by_cases hsegment : hunk.isSegment
    · rw [if_pos hsegment, if_pos hsegment, Nat.zero_add]
      exact hentries _ (segmentCount_take_lt hget hsegment)
    · rw [if_neg hsegment, if_neg hsegment]

theorem matchesTable_of_firstSegment (h : file.firstSegment = 0) : file.MatchesTable := by
  rw [matchesTable_iff]
  intro k _
  rw [h, Nat.zero_add]

/-- The first segment in the file has an entry of the table. -/
theorem firstSegment_lt (h : file.WellFormed) : file.firstSegment < file.sizes.length := by
  have hextent := h.extent
  have hpos := h.nonempty
  unfold firstSegment
  cases he : file.extent with
  | complete => exact hpos
  | range first last =>
      rw [he] at hextent
      exact Nat.lt_of_le_of_lt (UInt32.le_iff_toNat_le.1 hextent.1) hextent.2.1

/-- All segments of a complete file have an entry. -/
theorem entryMemory_of_complete (h : file.WellFormed) (hcomplete : file.extent = .complete)
    {k : Nat} (hk : k < segmentCount file.hunks) : (entryMemory file.sizes k).isSome := by
  have hextent := h.extent
  rw [hcomplete] at hextent
  have hlt : k < file.sizes.length := hextent ▸ hk
  unfold entryMemory
  rw [List.getElem?_eq_getElem hlt]
  rfl

/-- **The summary of a file that is read.** It has a line for each block, where the segments take
    the entries of the table from its start on, and the other blocks none. These are the entries of
    the segments exactly if they have the memory types of the entries from that of the first segment
    of the range on; so always in a complete file, in which each segment has an entry. -/
theorem summary_of_parse {data : Bytes} (h : parse data = .ok file) :
    (∀ i : Nat, file.summary[i]? = file.hunks[i]?.map fun hunk =>
      hunk.line i (memoryFrom 0 file.hunks file.sizes i hunk)) ∧
    file.firstSegment < file.sizes.length ∧
    (file.MatchesTable ↔ ∀ k < segmentCount file.hunks,
      entryMemory file.sizes k = entryMemory file.sizes (file.firstSegment + k)) ∧
    (file.extent = .complete → file.MatchesTable ∧
      ∀ k < segmentCount file.hunks, (entryMemory file.sizes k).isSome) := by
  obtain ⟨l, -, hl⟩ := parse_eq_ok.1 h
  refine ⟨file.getElem?_summary, firstSegment_lt hl.wellFormed, matchesTable_iff, ?_⟩
  intro hcomplete
  have hfirst : file.firstSegment = 0 := by
    unfold firstSegment
    rw [hcomplete]
  exact ⟨matchesTable_of_firstSegment hfirst,
    fun _ hk => entryMemory_of_complete hl.wellFormed hcomplete hk⟩

/-- A complete program with relocations between its segments. -/
def relocated : HunkFile where
  extent := .complete
  sizes := [⟨4, .chip⟩, ⟨4, .fast⟩]
  hunks := [.code [0x4E, 0x71, 0x4E, 0x75], .reloc32 [⟨1, [0, 2]⟩], .finish, .data [0, 0, 0, 7],
    .finish]

/-- The data takes the second entry. -/
theorem summary_of_parse_relocated : relocated.MatchesTable ∧
    relocated.summary[1]? = some ⟨1, .reloc32, 0, none, 2⟩ ∧
    relocated.summary[3]? = some ⟨3, .data, 4, some .fast, 0⟩ := by
  have hrelocated : relocated.WellFormed := ⟨by decide, by decide, by decide, by decide⟩
  have hread : parse relocated.write = .ok relocated := hrelocated.read
  obtain ⟨hlines, -, -, hcomplete⟩ := summary_of_parse hread
  exact ⟨(hcomplete rfl).1, (hlines 1).trans (by decide), (hlines 3).trans (by decide)⟩

/-- The second of three segments, which is for fast memory; the first one is for chip memory. -/
def overlay : HunkFile where
  extent := .range 1 1
  sizes := [⟨4, .chip⟩, ⟨4, .fast⟩, ⟨4, .any⟩]
  hunks := [.code [0x4E, 0x71, 0x4E, 0x75], .finish]

/-- Its summary says chip memory. -/
theorem overlay_not_matchesTable : parse overlay.write = .ok overlay ∧
    overlay.summary[0]? = some ⟨0, .code, 4, some .chip, 0⟩ ∧
    entryMemory overlay.sizes overlay.firstSegment = some .fast ∧ ¬ overlay.MatchesTable := by
  have hoverlay : overlay.WellFormed := ⟨by decide, by decide, by decide, by decide⟩
  refine ⟨hoverlay.read, by decide, by decide, ?_⟩
  intro hmatch
  exact absurd (hmatch 0 _ rfl) (by decide)

end HunkFile

end AmigaBinary
