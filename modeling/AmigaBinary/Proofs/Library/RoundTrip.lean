import AmigaBinary.Library.Parse
import AmigaBinary.Proofs.Library.TokenTable

/-!
# Writing and reading libraries

A library is laid out as a header with the lengths of its sections, the marker if it has one, and
the sections one behind the other (`Layout.bytes`). What is laid out is read again, with the names
of the keywords resolved (`parse_of_layout`): the code blocks by their lengths
(`readBlocks_blocks`), the keywords by their records, and the titles by the NULs between them
(`titleStrings_title`).
-/

namespace AmigaBinary.Library

open TokenTable (Entry keywords)

/-! ## 1. Titles -/

/-- Titles with a NUL between each two. -/
def joinTitles : List Bytes → Bytes
  | [] => []
  | [title] => title
  | title :: next :: titles => title ++ 0 :: joinTitles (next :: titles)

theorem splitAtNuls_title {title : Bytes} (h : 0 ∉ title) : splitAtNuls title = [title] := by
  induction title with
  | nil => rfl
  | cons byte title ih =>
      obtain ⟨hbyte, htitle⟩ := not_or.1 (mt List.mem_cons.2 h)
      rw [splitAtNuls, if_neg (Ne.symm hbyte), ih htitle]

theorem splitAtNuls_append {title : Bytes} (h : 0 ∉ title) (rest : Bytes) :
    splitAtNuls (title ++ 0 :: rest) = title :: splitAtNuls rest := by
  induction title with
  | nil => exact if_pos rfl
  | cons byte title ih =>
      obtain ⟨hbyte, htitle⟩ := not_or.1 (mt List.mem_cons.2 h)
      rw [List.cons_append, splitAtNuls, if_neg (Ne.symm hbyte), ih htitle]

/-- **Titles are told apart by the NULs between them.** -/
theorem splitAtNuls_joinTitles {titles : List Bytes} (hne : titles ≠ [])
    (h : ∀ title ∈ titles, 0 ∉ title) : splitAtNuls (joinTitles titles) = titles := by
  induction titles using joinTitles.induct with
  | case1 => exact absurd rfl hne
  | case2 title => exact splitAtNuls_title (h title List.mem_cons_self)
  | case3 title next titles ih =>
      rw [joinTitles, splitAtNuls_append (h title List.mem_cons_self),
        ih (List.cons_ne_nil next titles) fun t ht => h t (List.mem_cons_of_mem title ht)]

/-- Titles end with a byte of the last one. -/
theorem joinTitles_ends {titles : List Bytes} (hne : titles ≠ [])
    (h : ∀ title ∈ titles, 0 ∉ title) (hlast : titles.getLast? ≠ some []) :
    ∃ front byte, joinTitles titles = front ++ [byte] ∧ byte ≠ 0 := by
  induction titles using joinTitles.induct with
  | case1 => exact absurd rfl hne
  | case2 title =>
      rcases List.eq_nil_or_concat title with rfl | ⟨front, byte, rfl⟩
      · exact absurd rfl hlast
      · refine ⟨front, byte, List.concat_eq_append, ?_⟩
        rintro rfl
        exact h _ List.mem_cons_self (by simp)
  | case3 title next titles ih =>
      rw [List.getLast?_cons_cons] at hlast
      obtain ⟨front, byte, hjoin, hbyte⟩ := ih (List.cons_ne_nil next titles)
        (fun t ht => h t (List.mem_cons_of_mem title ht)) hlast
      refine ⟨title ++ 0 :: front, byte, ?_, hbyte⟩
      rw [joinTitles, hjoin, List.append_assoc]
      rfl

theorem trimNuls_append (data : Bytes) (nuls : Nat) :
    Bytes.trimNuls (data ++ List.replicate nuls 0) = Bytes.trimNuls data := by
  unfold Bytes.trimNuls
  rw [List.reverse_append, List.reverse_replicate, List.dropWhile_append_of_pos]
  intro byte hb
  rw [List.eq_of_mem_replicate hb]
  rfl

theorem trimNuls_concat (front : Bytes) {byte : UInt8} (h : byte ≠ 0) :
    Bytes.trimNuls (front ++ [byte]) = front ++ [byte] := by
  unfold Bytes.trimNuls
  rw [List.reverse_concat, List.dropWhile_cons_of_neg (by simpa using h), List.reverse_cons,
    List.reverse_reverse]

/-- **The strings of a title section are its titles**, whatever NULs are behind them. -/
theorem titleStrings_title {titles : List Bytes} (h : ∀ title ∈ titles, 0 ∉ title)
    (hlast : titles.getLast? ≠ some []) (nuls : Nat) :
    titleStrings (joinTitles titles ++ List.replicate nuls 0) = titles.map Text.latin1 := by
  unfold titleStrings
  rw [trimNuls_append]
  by_cases hne : titles = []
  · subst hne
    rfl
  · obtain ⟨front, byte, hjoin, hbyte⟩ := joinTitles_ends hne h hlast
    have hsplit := splitAtNuls_joinTitles hne h
    rw [hjoin] at hsplit ⊢
    rw [trimNuls_concat front hbyte]
    split
    · rename_i hnil
      exact absurd hnil (by simp)
    · rw [hsplit]

/-! ## 2. Code blocks -/

/-- The length of a code block in words. -/
def blockWord (block : Bytes) : UInt16 :=
  UInt16.ofNat (block.length / 2)

/-- A code block has whole words, which a word can count. -/
def FitsBlock (block : Bytes) : Prop :=
  block.length % 2 = 0 ∧ block.length ≤ 131070

instance (block : Bytes) : Decidable (FitsBlock block) :=
  inferInstanceAs (Decidable (block.length % 2 = 0 ∧ block.length ≤ 131070))

theorem toNat_blockWord {block : Bytes} (h : FitsBlock block) :
    2 * (blockWord block).toNat = block.length := by
  obtain ⟨heven, hmax⟩ := h
  have hword : (blockWord block).toNat = block.length / 2 :=
    UInt16.toNat_ofNat_of_lt' (by simp only [UInt16.size]; omega)
  omega

theorem wordsOf_flatMap (words : List UInt16) :
    wordsOf (words.flatMap Bytes.ofWord16) = words := by
  induction words with
  | nil => rfl
  | cons w words ih =>
      show Bytes.word16 (w >>> 8).toUInt8 w.toUInt8 :: wordsOf (words.flatMap Bytes.ofWord16) = _
      rw [Bytes.word16_ofWord16, ih]

/-- **Code blocks are read by their lengths.** -/
theorem readBlocks_blocks {blocks : List Bytes} (h : ∀ block ∈ blocks, FitsBlock block)
    {c next : Cursor} (hr : c.Reads blocks.flatten next) :
    readBlocks (blocks.map blockWord) c = .ok (blocks, next) := by
  induction blocks generalizing c with
  | nil =>
      obtain rfl := Cursor.reads_nil.1 hr
      rfl
  | cons block blocks ih =>
      obtain ⟨d, hblock, hrest⟩ := Cursor.reads_append.1 hr
      have hlength := toNat_blockWord (h block List.mem_cons_self)
      have hblocks := ih (fun b hb => h b (List.mem_cons_of_mem block hb)) hrest
      exact bind_eq_ok.2 ⟨_, Cursor.take_eq_ok.2 ⟨hlength.symm, hblock⟩,
        bind_eq_ok.2 ⟨_, hblocks, rfl⟩⟩

/-! ## 3. Layouts -/

/-- What stands in a library. -/
structure Layout where
  flag : UInt16
  ap20 : Bool
  blocks : List Bytes
  entries : List Entry
  titles : List Bytes
  /-- The NULs behind the titles. -/
  nuls : Nat
  deriving DecidableEq, Repr

namespace Layout

/-- The section with the lengths of the code blocks. -/
def table (l : Layout) : Bytes :=
  (l.blocks.map blockWord).flatMap Bytes.ofWord16

/-- The section with the records of the keywords. -/
def tokens (l : Layout) : Bytes :=
  TokenTable.table l.entries

/-- The section with the code blocks. -/
def code (l : Layout) : Bytes :=
  l.blocks.flatten

/-- The section with the titles. -/
def title (l : Layout) : Bytes :=
  joinTitles l.titles ++ List.replicate l.nuls 0

/-- The marker, if the library has it. -/
def mark (l : Layout) : Bytes :=
  if l.ap20 then marker else []

/-- The length of a section in the header. -/
def lengthWord (bytes : Bytes) : Bytes :=
  Bytes.ofWord32 (UInt32.ofNat bytes.length)

/-- The bytes of a library. The marker does not count for a section. -/
def bytes (l : Layout) : Bytes :=
  lengthWord l.table ++ (lengthWord l.tokens ++ (lengthWord l.code ++ (lengthWord l.title
    ++ (Bytes.ofWord16 l.flag ++ (l.mark ++ (l.table ++ (l.tokens ++ (l.code ++ l.title))))))))

/-- The library that is laid out. -/
def library (l : Layout) : Library where
  alwaysRun := l.flag ≠ 0
  ap20 := l.ap20
  codeBlocks := l.blocks
  tokens := keywords [] l.entries
  title := l.titles.map Text.latin1

/-- What can be laid out: blocks and records that can be read back, titles without NULs of which the
    last is not empty, and sections whose lengths fit the header. -/
structure WellFormed (l : Layout) : Prop where
  blocks : ∀ block ∈ l.blocks, FitsBlock block
  entries : ∀ e ∈ l.entries, e.WellFormed
  titles : ∀ title ∈ l.titles, 0 ∉ title
  lastTitle : l.titles.getLast? ≠ some []
  tableLength : l.table.length < 0x100000000
  tokensLength : l.tokens.length < 0x100000000
  codeLength : l.code.length < 0x100000000
  titleLength : l.title.length < 0x100000000

/-- Where the sections stand. -/
def sections (l : Layout) : Sections where
  table := 18 + l.mark.length
  tokens := 18 + l.mark.length + l.table.length
  code := 18 + l.mark.length + l.table.length + l.tokens.length
  title := 18 + l.mark.length + l.table.length + l.tokens.length + l.code.length
  finish := 18 + l.mark.length + l.table.length + l.tokens.length + l.code.length + l.title.length

end Layout

/-! ## 4. Reading a layout -/

section Reading

variable {l : Layout} {data behind : Bytes}

/-- The header is that of the layout, and its parts stand where the sections are. -/
structure Placed (l : Layout) (data behind : Bytes) : Prop where
  tableLength : Bytes.readWord32 data 0 = .ok (UInt32.ofNat l.table.length)
  tokensLength : Bytes.readWord32 data 4 = .ok (UInt32.ofNat l.tokens.length)
  codeLength : Bytes.readWord32 data 8 = .ok (UInt32.ofNat l.code.length)
  titleLength : Bytes.readWord32 data 12 = .ok (UInt32.ofNat l.title.length)
  flag : Bytes.readWord16 data 16 = .ok l.flag
  mark : data.drop 18 = l.mark ++ (l.table ++ (l.tokens ++ (l.code ++ (l.title ++ behind))))
  table : data.drop l.sections.table
    = l.table ++ (l.tokens ++ (l.code ++ (l.title ++ behind)))
  tokens : data.drop l.sections.tokens = l.tokens ++ (l.code ++ (l.title ++ behind))
  code : data.drop l.sections.code = l.code ++ (l.title ++ behind)
  title : data.drop l.sections.title = l.title ++ behind
  length : data.length = l.sections.finish + behind.length

/-- **The parts of a library are found one behind the other.** -/
theorem placed_bytes (l : Layout) (behind : Bytes) : Placed l (l.bytes ++ behind) behind := by
  have h0 : (l.bytes ++ behind).drop 0 = Layout.lengthWord l.table ++ (Layout.lengthWord l.tokens
      ++ (Layout.lengthWord l.code ++ (Layout.lengthWord l.title ++ (Bytes.ofWord16 l.flag
        ++ (l.mark ++ (l.table ++ (l.tokens ++ (l.code ++ (l.title ++ behind))))))))) := by
    unfold Layout.bytes
    simp only [List.drop_zero, List.append_assoc]
  have h4 := Bytes.drop_behind h0
  have h8 := Bytes.drop_behind h4
  have h12 := Bytes.drop_behind h8
  have h16 := Bytes.drop_behind h12
  have h18 := Bytes.drop_behind h16
  have htable := Bytes.drop_behind h18
  have htokens := Bytes.drop_behind htable
  have hcode := Bytes.drop_behind htokens
  have htitle := Bytes.drop_behind hcode
  have hlength := congrArg List.length h0
  refine ⟨Bytes.readWord32_eq_ok.2 ⟨_, h0⟩, Bytes.readWord32_eq_ok.2 ⟨_, h4⟩,
    Bytes.readWord32_eq_ok.2 ⟨_, h8⟩, Bytes.readWord32_eq_ok.2 ⟨_, h12⟩,
    Bytes.readWord16_eq_ok.2 ⟨_, h16⟩, h18, htable, htokens, hcode, htitle, ?_⟩
  simp only [List.drop_zero, List.length_append, Layout.lengthWord, Bytes.length_ofWord32,
    Bytes.length_ofWord16] at hlength
  simp only [Layout.sections, List.length_append]
  omega

/-- **The marker is found if it is there.** Other bytes in its place must not look like it. -/
theorem hasMarker_of_placed (hp : Placed l data behind)
    (hm : l.ap20 = false → (data.drop 18).take 4 ≠ marker) : hasMarker data = l.ap20 := by
  unfold hasMarker
  cases ha : l.ap20 with
  | false => exact beq_eq_false_iff_ne.2 (hm ha)
  | true =>
      have hmark : l.mark = marker := if_pos ha
      have htake : (data.drop headerLength).take marker.length = marker := by
        rw [headerLength, hp.mark, hmark, List.take_left]
      exact beq_iff_eq.2 htake

theorem length_mark (l : Layout) : l.mark.length = if l.ap20 then 4 else 0 := by
  unfold Layout.mark
  split <;> rfl

/-- **The sections are where their lengths say.** -/
theorem readSections_of_placed (h : l.WellFormed) (hp : Placed l data behind)
    (hm : hasMarker data = l.ap20) : readSections data = .ok l.sections := by
  have htable := UInt32.toNat_ofNat_of_lt' h.tableLength
  have htokens := UInt32.toNat_ofNat_of_lt' h.tokensLength
  have hcode := UInt32.toNat_ofNat_of_lt' h.codeLength
  have htitle := UInt32.toNat_ofNat_of_lt' h.titleLength
  have hstart : (if hasMarker data = true then headerLength + marker.length else headerLength)
      = 18 + l.mark.length := by
    rw [hm, length_mark]
    split <;> rfl
  have hlength := hp.length
  unfold readSections
  refine bind_eq_ok.2 ⟨_, hp.tableLength, bind_eq_ok.2 ⟨_, hp.tokensLength,
    bind_eq_ok.2 ⟨_, hp.codeLength, bind_eq_ok.2 ⟨_, hp.titleLength, ?_⟩⟩⟩⟩
  dsimp only
  rw [hstart, htable, htokens, hcode, htitle]
  exact if_neg (by simp only [Layout.sections] at hlength; omega)

theorem between_of_drop {part rest : Bytes} {start : Nat} (h : data.drop start = part ++ rest) :
    between data start (start + part.length) = part := by
  unfold between
  rw [h, Nat.add_sub_cancel_left, List.take_left]

/-- **The code blocks are read, and fill their section.** -/
theorem readCode_of_placed (h : l.WellFormed) (hp : Placed l data behind) :
    readCode data l.sections = .ok l.blocks := by
  have htable : between data l.sections.table l.sections.tokens = l.table :=
    between_of_drop hp.table
  have hblocks : readBlocks (l.blocks.map blockWord) ⟨data.drop l.sections.code, l.sections.code⟩
      = .ok (l.blocks, ⟨l.title ++ behind, l.sections.title⟩) :=
    readBlocks_blocks h.blocks ⟨hp.code, rfl⟩
  unfold readCode
  rw [htable, Layout.table, wordsOf_flatMap]
  exact bind_eq_ok.2 ⟨_, hblocks, if_pos rfl⟩

/-- **The keywords are read**, at the even offset at which their section starts. -/
theorem readTokens_of_placed (h : l.WellFormed) (hp : Placed l data behind) :
    TokenTable.read data l.sections.tokens l.sections.code = .ok (keywords [] l.entries) := by
  have htable : l.table.length = 2 * l.blocks.length := by
    rw [Layout.table, Bytes.length_flatMap_ofWord16, List.length_map]
  have heven : l.sections.tokens % 2 = 0 := by
    have hmark := length_mark l
    simp only [Layout.sections]
    split at hmark <;> omega
  unfold TokenTable.read
  rw [hp.tokens]
  exact TokenTable.readFrom_table h.entries [] _ heven (Nat.le_refl _)

/-- **A library is read as it was laid out**: its flags, its code blocks, its keywords with the
    names that they share, and its titles. What is behind it does not matter. -/
theorem parse_of_layout (h : l.WellFormed) (behind : Bytes)
    (hm : l.ap20 = false → ((l.bytes ++ behind).drop 18).take 4 ≠ Bytes.ascii "AP20") :
    parse (l.bytes ++ behind) = .ok l.library := by
  have hp := placed_bytes l behind
  have hmarker := hasMarker_of_placed hp hm
  have hlength := hp.length
  have htitle : between (l.bytes ++ behind) l.sections.title l.sections.finish = l.title :=
    between_of_drop hp.title
  unfold parse
  rw [if_neg (by simp only [Layout.sections] at hlength; rw [headerLength]; omega)]
  refine bind_eq_ok.2 ⟨_, hp.flag, bind_eq_ok.2 ⟨_, readSections_of_placed h hp hmarker,
    bind_eq_ok.2 ⟨_, readCode_of_placed h hp, bind_eq_ok.2 ⟨_, readTokens_of_placed h hp, ?_⟩⟩⟩⟩
  rw [hmarker, htitle, Layout.title, titleStrings_title h.titles h.lastTitle]
  rfl

end Reading

/-- A library of two routines. Its second record shares the name `play` of the first one, and its
    second title is empty. -/
def music : Layout where
  flag := 1
  ap20 := false
  blocks := [[0x4E, 0x75], [0x70, 1, 0x4E, 0x75]]
  entries :=
    [⟨⟨1, 0xFFFF, [0x21, 0x70, 0x6C, 0x61, 0x79], [0x49, 0x30], 0xFE⟩, 7⟩,
      ⟨⟨0xFFFF, 2, [], [0x30, 0x30], 0⟩, 0⟩]
  titles := [[0x4D, 0xFC], [], [0x56]]
  nuls := 3

/-- It is read with this name in both of its keywords, whatever is behind it. -/
theorem parse_of_layout_music :
    parse (music.bytes ++ [0x41, 0x50]) = .ok {
      alwaysRun := true
      ap20 := false
      codeBlocks := [[0x4E, 0x75], [0x70, 1, 0x4E, 0x75]]
      tokens := [⟨1, -1, "play", "I0", -2⟩, ⟨-1, 2, "play", "00", 0⟩]
      title := ["Mü", "", "V"]
    } := by
  have h : music.WellFormed :=
    ⟨by decide, by decide, by decide, by decide, by decide, by decide, by decide, by decide⟩
  exact parse_of_layout h [0x41, 0x50] (by decide)

end AmigaBinary.Library
