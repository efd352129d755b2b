import AmigaBinary.Proofs.Library.Sections
import AmigaBinary.Proofs.Library.TokenTable

/-!
# The token section of a library

A record that is read is the bytes it was read from (`readRecord_eq_some`), all of them in front of
the end of the section: its names are checked byte by byte, and its two numbers lie in front of
them. The zero word that ends the table has nothing behind it, and only its first byte is checked.
So it may start at the last byte of the section and end at the first byte behind it.
`tokens_of_parse` says when that can be, and that the keywords are read from the section alone
exactly if it is not so.
-/

namespace AmigaBinary.TokenTable

variable {limit position : Nat}

/-! ## 1. Names and signatures -/

/-- The last byte of a name is spelled by its lower bits. -/
theorem or_and_last {byte : UInt8} :
    0x80 ≤ byte → (byte &&& 0x7F) ||| 0x80 = byte ∧ byte &&& 0x7F < 0x80 :=
  @Bytes.of_lt (fun byte => 0x80 ≤ byte → (byte &&& 0x7F) ||| 0x80 = byte ∧ byte &&& 0x7F < 0x80)
    0x100 (by decide +kernel) byte byte.toNat_lt

/-- **A name that is read is spelled by the bytes it was read from**, which lie in the section. -/
theorem reads_of_readName {bytes name : Bytes} {next : Cursor}
    (h : readName limit bytes position = .ok (name, next)) :
    name ≠ [] ∧ (∀ byte ∈ name, byte < 0x80) ∧
      (⟨bytes, position⟩ : Cursor).Reads (spellName name) next ∧ next.position ≤ limit := by
  induction bytes generalizing position name with
  | nil => cases h
  | cons byte rest ih =>
      rw [readName] at h
      split at h
      · cases h
      · rename_i hlimit
        split at h
        · rename_i hlast
          obtain ⟨rfl, rfl⟩ := Prod.mk.inj (Except.ok.inj h)
          obtain ⟨hspell, hlow⟩ := or_and_last hlast
          refine ⟨List.cons_ne_nil _ _, List.forall_mem_singleton.2 hlow, ⟨?_, rfl⟩,
            Nat.lt_of_not_le hlimit⟩
          show byte :: rest = [(byte &&& 0x7F) ||| 0x80] ++ rest
          rw [hspell]
          rfl
        · rename_i hlow
          split at h
          · rename_i tail cursor htail
            obtain ⟨rfl, rfl⟩ := Prod.mk.inj (Except.ok.inj h)
            obtain ⟨hne, hascii, hr, hle⟩ := ih htail
            obtain ⟨first, more, rfl⟩ := List.exists_cons_of_ne_nil hne
            refine ⟨List.cons_ne_nil _ _, List.forall_mem_cons.2 ⟨UInt8.not_le.1 hlow, hascii⟩,
              ⟨?_, ?_⟩, hle⟩
            · exact congrArg (byte :: ·) hr.rest
            · rw [hr.position, spellName, List.length_cons, Nat.add_assoc, Nat.add_comm 1]
          · cases h

/-- **A signature that is read is the bytes in front of the one that ends it.** -/
theorem reads_of_readSignature {bytes signature : Bytes} {last : UInt8} {next : Cursor}
    (h : readSignature limit bytes position = .ok (signature, last, next)) :
    (∀ byte ∈ signature, byte ≠ 0 ∧ byte < 0x80) ∧ (last = 0 ∨ 0x80 ≤ last) ∧
      (⟨bytes, position⟩ : Cursor).Reads (signature ++ [last]) next ∧ next.position ≤ limit := by
  induction bytes generalizing position signature with
  | nil => cases h
  | cons byte rest ih =>
      rw [readSignature] at h
      split at h
      · cases h
      · rename_i hlimit
        split at h
        · rename_i hlast
          obtain ⟨rfl, hrest⟩ := Prod.mk.inj (Except.ok.inj h)
          obtain ⟨rfl, rfl⟩ := Prod.mk.inj hrest
          exact ⟨List.forall_mem_nil _, hlast, ⟨rfl, rfl⟩, Nat.lt_of_not_le hlimit⟩
        · rename_i hgoes
          obtain ⟨hzero, hlow⟩ := not_or.1 hgoes
          split at h
          · rename_i tail end_ cursor htail
            obtain ⟨rfl, hrest⟩ := Prod.mk.inj (Except.ok.inj h)
            obtain ⟨rfl, rfl⟩ := Prod.mk.inj hrest
            obtain ⟨hpositive, hlast, hr, hle⟩ := ih htail
            refine ⟨List.forall_mem_cons.2 ⟨⟨hzero, UInt8.not_le.1 hlow⟩, hpositive⟩, hlast,
              ⟨?_, ?_⟩, hle⟩
            · exact congrArg (byte :: ·) hr.rest
            · rw [hr.position, List.cons_append, List.length_cons, Nat.add_assoc, Nat.add_comm 1]
          · cases h

/-! ## 2. Records -/

/-- The bytes of a record, without padding. -/
def Record.contents (record : Record) : Bytes :=
  Entry.contents ⟨record, 0⟩

/-- A record that can stand in a table. -/
def Record.WellFormed (record : Record) : Prop :=
  Entry.WellFormed ⟨record, 0⟩

theorem spellName_rawName (name : Bytes) : spellName (rawName name) = spellName name := by
  unfold rawName
  split
  · rename_i hname
    rw [hname]
    rfl
  · rfl

theorem rawName_ne (name : Bytes) : rawName name ≠ [0] := by
  unfold rawName
  split
  · exact (List.cons_ne_nil 0 []).symm
  · assumption

theorem mem_of_mem_rawName {name : Bytes} {byte : UInt8} (h : byte ∈ rawName name) :
    byte ∈ name := by
  unfold rawName at h
  split at h
  · cases h
  · exact h

/-- **A record is read exactly if its bytes are gone over in front of the end of the section.** The
    next one starts at the next even offset. -/
theorem readRecord_eq_some {cursor next : Cursor} {record : Record} :
    readRecord limit cursor = .ok (some (record, next)) ↔
      record.WellFormed ∧ cursor.position + record.contents.length ≤ limit ∧
        ∃ d, cursor.Reads record.contents d ∧ next = align d := by
  constructor
  · intro h
    unfold readRecord at h
    split at h
    · cases h
    · obtain ⟨⟨instruction, c₁⟩, hinstruction, h⟩ := bind_eq_ok.1 h
      dsimp only at h
      split at h
      · cases h
      · rename_i hnonzero
        obtain ⟨⟨function, c₂⟩, hfunction, h⟩ := bind_eq_ok.1 h
        obtain ⟨⟨name, c₃⟩, hname, h⟩ := bind_eq_ok.1 h
        obtain ⟨⟨signature, last, c₄⟩, hsignature, h⟩ := bind_eq_ok.1 h
        obtain ⟨rfl, rfl⟩ := Prod.mk.inj (Option.some.inj (Except.ok.inj h))
        obtain ⟨-, hascii, hr₃, -⟩ := reads_of_readName hname
        obtain ⟨hpositive, hlast, hr₄, hle⟩ := reads_of_readSignature hsignature
        rw [← spellName_rawName] at hr₃
        have hr : cursor.Reads (Record.contents ⟨instruction, function, rawName name, signature,
            last⟩) c₄ :=
          (Cursor.word16_eq_ok.1 hinstruction).trans
            ((Cursor.word16_eq_ok.1 hfunction).trans (hr₃.trans hr₄))
        refine ⟨⟨hnonzero, rawName_ne name, fun byte hb => hascii byte (mem_of_mem_rawName hb),
          hpositive, hlast⟩, ?_, c₄, hr, rfl⟩
        rw [← hr.position]
        exact hle
  · rintro ⟨hrecord, hlimit, d, hr, rfl⟩
    have hread := readRecord_contents hrecord d.rest hlimit
    obtain ⟨rest, position⟩ := cursor
    obtain ⟨behind, offset⟩ := d
    obtain ⟨hrest, hposition⟩ := hr
    dsimp only at hrest hposition hread
    subst hrest hposition
    exact hread

/-- **The table ends at a zero word** of which the first byte lies in the section. -/
theorem readRecord_eq_none {cursor : Cursor} :
    readRecord limit cursor = .ok none ↔
      cursor.position < limit ∧ ∃ d, cursor.Reads (Bytes.ofWord16 0) d := by
  constructor
  · intro h
    unfold readRecord at h
    split at h
    · cases h
    · rename_i hlimit
      obtain ⟨⟨instruction, c₁⟩, hinstruction, h⟩ := bind_eq_ok.1 h
      dsimp only at h
      split at h
      · rename_i hzero
        subst hzero
        exact ⟨Nat.lt_of_not_le hlimit, c₁, Cursor.word16_eq_ok.1 hinstruction⟩
      · obtain ⟨⟨function, c₂⟩, -, h⟩ := bind_eq_ok.1 h
        obtain ⟨⟨name, c₃⟩, -, h⟩ := bind_eq_ok.1 h
        obtain ⟨⟨signature, last, c₄⟩, -, h⟩ := bind_eq_ok.1 h
        cases h
  · rintro ⟨hlimit, d, hr⟩
    unfold readRecord
    rw [if_neg (Nat.not_le_of_lt hlimit)]
    exact bind_eq_ok.2 ⟨_, Cursor.word16_eq_ok.2 hr, rfl⟩

/-! ## 3. Tables in data -/

/-- The first even offset that is not in front of an offset. -/
def evenFrom (offset : Nat) : Nat :=
  offset + offset % 2

/-- Records with the offsets at which they start, the first one at `start`. -/
def placed : Nat → List Record → List (Nat × Record)
  | _, [] => []
  | start, record :: records =>
    (start, record) :: placed (evenFrom (start + record.contents.length)) records

/-- The offset behind the last record, where the zero word starts. -/
def finish : Nat → List Record → Nat
  | start, [] => start
  | start, record :: records => finish (evenFrom (start + record.contents.length)) records

/-- The keywords that records stand for, where `previous` is the name in front of the first one. -/
def keywordsOf (previous : Bytes) : List Record → List Token
  | [] => []
  | record :: records => record.token previous :: keywordsOf record.name records

/-- A record stands at an offset of the data, all of it in front of `limit`. -/
structure Holds (data : Bytes) (limit place : Nat) (record : Record) : Prop where
  wellFormed : record.WellFormed
  inside : place + record.contents.length ≤ limit
  bytes : ∃ rest, data.drop place = record.contents ++ rest

/-- Records stand in the data one behind the other, and behind them a zero word whose first byte is
    in front of `limit`. -/
structure Stands (data : Bytes) (start limit : Nat) (records : List Record) : Prop where
  holds : ∀ place record, (place, record) ∈ placed start records → Holds data limit place record
  inside : finish start records < limit
  zero : ∃ rest, data.drop (finish start records) = Bytes.ofWord16 0 ++ rest

variable {data other : Bytes} {start place : Nat} {record : Record} {records : List Record}

theorem stands_cons :
    Stands data start limit (record :: records) ↔
      Holds data limit start record ∧
        Stands data (evenFrom (start + record.contents.length)) limit records := by
  constructor
  · intro ⟨hrecords, hinside, hzero⟩
    exact ⟨hrecords _ _ List.mem_cons_self,
      ⟨fun p r hm => hrecords p r (List.mem_cons_of_mem _ hm), hinside, hzero⟩⟩
  · intro ⟨hfirst, hrecords, hinside, hzero⟩
    refine ⟨fun p r hm => ?_, hinside, hzero⟩
    rcases List.mem_cons.1 hm with he | hm
    · obtain ⟨rfl, rfl⟩ := Prod.mk.inj he
      exact hfirst
    · exact hrecords p r hm

theorem le_of_mem_placed (h : (place, record) ∈ placed start records) : start ≤ place := by
  induction records generalizing start with
  | nil => cases h
  | cons first records ih =>
      rcases List.mem_cons.1 h with he | h
      · exact Nat.le_of_eq (Prod.mk.inj he).1.symm
      · have hle := ih h
        rw [evenFrom] at hle
        omega

theorem le_finish (start : Nat) (records : List Record) : start ≤ finish start records := by
  induction records generalizing start with
  | nil => exact Nat.le_refl start
  | cons first records ih =>
      have hle := ih (evenFrom (start + first.contents.length))
      rw [finish]
      rw [evenFrom] at hle ⊢
      omega

/-- Behind a record, and behind an even start, the table ends at an even offset. -/
theorem finish_even (h : start % 2 = 0 ∨ records ≠ []) : finish start records % 2 = 0 := by
  induction records generalizing start with
  | nil => exact h.resolve_right fun hne => hne rfl
  | cons first records ih => exact ih (.inl (by rw [evenFrom]; omega))

theorem align_drop (data : Bytes) (offset : Nat) :
    align ⟨data.drop offset, offset⟩ = ⟨data.drop (evenFrom offset), evenFrom offset⟩ := by
  unfold align evenFrom
  dsimp only
  split
  · rename_i heven
    rw [heven]
    rfl
  · rename_i hodd
    rw [List.drop_drop, show offset % 2 = 1 by omega]

/-- A record is read where it stands. -/
theorem readRecord_of_holds (h : Holds data limit place record) :
    readRecord limit ⟨data.drop place, place⟩ = .ok (some (record,
      ⟨data.drop (evenFrom (place + record.contents.length)),
        evenFrom (place + record.contents.length)⟩)) :=
  readRecord_eq_some.2 ⟨h.wellFormed, h.inside, _, Cursor.reads_drop.2 ⟨h.bytes, rfl⟩,
    (align_drop data _).symm⟩

/-- The table ends where no record stands. -/
theorem readRecord_of_stands_nil (h : Stands data start limit []) :
    readRecord limit ⟨data.drop start, start⟩ = .ok none :=
  readRecord_eq_none.2 ⟨h.inside, _, Cursor.reads_drop.2 ⟨h.zero, rfl⟩⟩

/-- A table is read record by record. -/
theorem readFrom_eq (limit : Nat) (previous : Bytes) (cursor : Cursor) :
    readFrom limit previous cursor =
      match readRecord limit cursor with
      | .error e => .error e
      | .ok none => .ok []
      | .ok (some (record, next)) =>
        (readFrom limit record.name next).map (record.token previous :: ·) := by
  rw [readFrom]
  split
  · rename_i he
    rw [he]
  · rename_i hnone
    rw [hnone]
  · rename_i record next hsome
    rw [hsome]
    dsimp only
    cases readFrom limit record.name next <;> rfl

/-- What is read of a table is nothing, or a record and what is read behind it. -/
theorem readFrom_cases {previous : Bytes} {cursor : Cursor} {tokens : List Token}
    (h : readFrom limit previous cursor = .ok tokens) :
    readRecord limit cursor = .ok none ∧ tokens = [] ∨
      ∃ record next more, readRecord limit cursor = .ok (some (record, next)) ∧
        readFrom limit record.name next = .ok more ∧ record.token previous :: more = tokens := by
  rw [readFrom_eq] at h
  split at h
  · cases h
  · rename_i hnone
    exact .inl ⟨hnone, (Except.ok.inj h).symm⟩
  · rename_i record next hsome
    obtain ⟨more, hmore, htokens⟩ := map_eq_ok.1 h
    exact .inr ⟨record, next, more, hsome, hmore, htokens⟩

/-- **A table is read exactly if records stand in the data**, and its keywords are theirs. -/
theorem readFrom_eq_ok {previous : Bytes} {tokens : List Token} :
    readFrom limit previous ⟨data.drop start, start⟩ = .ok tokens ↔
      ∃ records, Stands data start limit records ∧ tokens = keywordsOf previous records := by
  constructor
  · intro h
    -- a record that is read takes something, so what is left of the data gets shorter
    induction hn : (data.drop start).length using Nat.strongRecOn
      generalizing start previous tokens with
    | ind n ih =>
        obtain ⟨hnone, rfl⟩ | ⟨record, next, more, hsome, hmore, rfl⟩ := readFrom_cases h
        · obtain ⟨hinside, d, hr⟩ := readRecord_eq_none.1 hnone
          exact ⟨[], ⟨fun _ _ hm => absurd hm List.not_mem_nil, hinside,
            (Cursor.reads_drop.1 hr).1⟩, rfl⟩
        · have hshorter := length_of_readRecord hsome
          obtain ⟨hrecord, hinside, d, hr, rfl⟩ := readRecord_eq_some.1 hsome
          obtain ⟨hbytes, rfl⟩ := Cursor.reads_drop.1 hr
          rw [align_drop] at hmore hshorter
          obtain ⟨records, hstands, rfl⟩ := ih _ (hn ▸ hshorter) hmore rfl
          exact ⟨record :: records, stands_cons.2 ⟨⟨hrecord, hinside, hbytes⟩, hstands⟩, rfl⟩
  · rintro ⟨records, hstands, rfl⟩
    induction records generalizing start previous with
    | nil => exact readFrom_none (readRecord_of_stands_nil hstands)
    | cons record records ih =>
        obtain ⟨hfirst, hrest⟩ := stands_cons.1 hstands
        exact readFrom_some (readRecord_of_holds hfirst) (ih hrest)

/-! ## 4. Tables in data that is the same up to the end of the section -/

/-- A record stands in all data that is the same in front of the end of the section. -/
theorem Holds.of_take_eq (h : Holds data limit place record)
    (hfront : other.take limit = data.take limit) : Holds other limit place record where
  wellFormed := h.wellFormed
  inside := h.inside
  bytes := by
    obtain ⟨rest, hbytes⟩ := h.bytes
    exact Bytes.drop_of_take_eq hfront hbytes h.inside

/-- **A table stands in such data exactly if the zero word does**: it ends in the section, or the
    byte behind the section is zero too. -/
theorem Stands.stands_iff (h : Stands data start limit records)
    (hfront : other.take limit = data.take limit) :
    Stands other start limit records ↔
      finish start records + 2 ≤ limit ∨ other[limit]? = some 0 := by
  have hinside := h.inside
  obtain ⟨rest, hbytes⟩ := h.zero
  constructor
  · rintro ⟨-, -, rest', hother⟩
    rcases Nat.lt_or_ge limit (finish start records + 2) with hlast | hends
    · right
      rw [show limit = finish start records + 1 by omega, ← List.getElem?_drop, hother]
      rfl
    · exact .inl hends
  · intro hzero
    refine ⟨fun place record hm => (h.holds place record hm).of_take_eq hfront, hinside, ?_⟩
    rcases Nat.lt_or_ge limit (finish start records + 2) with hlast | hends
    · have hbehind := hzero.resolve_left (Nat.not_le_of_lt hlast)
      rw [show limit = finish start records + 1 by omega, ← List.getElem?_drop] at hbehind
      obtain ⟨rest', hother⟩ := @Bytes.drop_of_take_eq data other [0] (0 :: rest) _ _ hfront hbytes
        hinside
      rw [hother] at hbehind ⊢
      cases rest' with
      | nil => cases hbehind
      | cons byte rest' =>
          obtain rfl := Option.some.inj hbehind
          exact ⟨rest', rfl⟩
    · exact Bytes.drop_of_take_eq hfront hbytes hends

/-- A record does not stand where a table ends. -/
theorem Stands.not_holds (h : Stands data start limit []) : ¬ Holds data limit start record := by
  intro hholds
  have hsome := readRecord_of_holds hholds
  rw [readRecord_of_stands_nil h] at hsome
  cases hsome

/-- **The records of a table are those of its section**: data that is the same up to the end of the
    section has no other table. -/
theorem Stands.unique {records' : List Record} (h : Stands data start limit records)
    (h' : Stands other start limit records') (hfront : other.take limit = data.take limit) :
    records' = records := by
  induction records generalizing start records' with
  | nil =>
      cases records' with
      | nil => rfl
      | cons record' records' =>
          exact absurd ((stands_cons.1 h').1.of_take_eq hfront.symm) h.not_holds
  | cons record records ih =>
      obtain ⟨hfirst, hrest⟩ := stands_cons.1 h
      cases records' with
      | nil => exact absurd (hfirst.of_take_eq hfront) h'.not_holds
      | cons record' records' =>
          obtain ⟨hfirst', hrest'⟩ := stands_cons.1 h'
          have hsame := (readRecord_of_holds (hfirst.of_take_eq hfront)).symm.trans
            (readRecord_of_holds hfirst')
          obtain ⟨rfl, -⟩ := Prod.mk.inj (Option.some.inj (Except.ok.inj hsame))
          rw [ih hrest hrest']

end AmigaBinary.TokenTable

namespace AmigaBinary.Library

open TokenTable

variable {data other : Bytes} {library : Library} {s : Sections}

/-! ## 5. Libraries with the same token section -/

/-- Other data has the same header, the same table of lengths and the same token section, and is
    long enough for its sections. -/
structure SharesTokens (data other : Bytes) (s : Sections) : Prop where
  front : other.take s.code = data.take s.code
  marker : hasMarker other = hasMarker data
  length : s.finish ≤ other.length

namespace SharesTokens

theorem between_eq (h : SharesTokens data other s) {start finish : Nat} (hle : finish ≤ s.code) :
    between other start finish = between data start finish := by
  have htake : ∀ d : Bytes, d.take finish = (d.take s.code).take finish := by
    intro d
    rw [List.take_take, Nat.min_eq_left hle]
  rw [Library.between_eq, Library.between_eq, htake other, h.front, ← htake]

theorem readWord32_eq_ok (h : SharesTokens data other s) {offset : Nat} {w : UInt32}
    (hle : offset + 4 ≤ s.code) (hw : Bytes.readWord32 data offset = .ok w) :
    Bytes.readWord32 other offset = .ok w := by
  obtain ⟨rest, hd⟩ := Bytes.readWord32_eq_ok.1 hw
  exact Bytes.readWord32_eq_ok.2 (Bytes.drop_of_take_eq h.front hd hle)

/-- Data with the same header has the same sections. -/
theorem lieIn (h : SharesTokens data other s) (hs : s.LieIn data) : s.LieIn other := by
  have hordered := hs.ordered
  obtain ⟨htable, ⟨table, h0, htokens⟩, ⟨tokens, h4, hcode⟩, ⟨code, h8, htitle⟩,
    ⟨title, h12, hfinish⟩, -⟩ := hs
  exact ⟨h.marker ▸ htable, ⟨table, h.readWord32_eq_ok (by omega) h0, htokens⟩,
    ⟨tokens, h.readWord32_eq_ok (by omega) h4, hcode⟩,
    ⟨code, h.readWord32_eq_ok (by omega) h8, htitle⟩,
    ⟨title, h.readWord32_eq_ok (by omega) h12, hfinish⟩, h.length⟩

theorem blockTotal_eq (h : SharesTokens data other s) (hs : s.LieIn data) :
    blockTotal other s = blockTotal data s := by
  rw [blockTotal, blockTotal, blockLengths, blockLengths, h.between_eq hs.ordered.2.2.1]

end SharesTokens

/-- The keywords of a library are those that its token section is read as. -/
theorem stands_of_parse (hs : s.LieIn data) (h : parse data = .ok library) :
    ∃ records, Stands data s.tokens s.code records ∧ library.tokens = keywordsOf [] records := by
  obtain ⟨flag, -, hparse⟩ := parse_of_lieIn hs
  rw [hparse] at h
  obtain ⟨blocks, -, h⟩ := bind_eq_ok.1 h
  obtain ⟨tokens, htokens, h⟩ := bind_eq_ok.1 h
  obtain rfl := Except.ok.inj h
  exact readFrom_eq_ok.1 htokens

/-- Data whose code blocks fill their section is read if its token section is. -/
theorem exists_parse (hs : s.LieIn data) (hfill : s.code + blockTotal data s = s.title)
    {records : List Record} (h : Stands data s.tokens s.code records) :
    ∃ library, parse data = .ok library := by
  obtain ⟨flag, -, hparse⟩ := parse_of_lieIn hs
  obtain ⟨blocks, hblocks⟩ := (exists_readCode_iff hs).2 hfill
  rw [hparse]
  exact ⟨_, bind_eq_ok.2 ⟨_, hblocks, bind_eq_ok.2 ⟨_, readFrom_eq_ok.2 ⟨_, h, rfl⟩, rfl⟩⟩⟩

theorem hasMarker_of_take_eq {n : Nat} (h : other.take n = data.take n) (hn : 22 ≤ n) :
    hasMarker other = hasMarker data := by
  have htake : ∀ d : Bytes, (d.drop headerLength).take marker.length
      = ((d.take n).drop headerLength).take marker.length := by
    intro d
    have hlength : headerLength + marker.length = 22 := rfl
    rw [List.drop_take, List.take_take, Nat.min_eq_left (by omega)]
  rw [hasMarker, hasMarker, htake other, h, ← htake]

/-- No data has the marker where it has another byte. -/
theorem hasMarker_of_getElem? {offset : Nat} {byte : UInt8} (hfrom : 18 ≤ offset)
    (hto : offset < 22) (hbyte : data[offset]? = some byte) (hne : byte ∉ marker) :
    hasMarker data = false := by
  have hheader : headerLength = 18 := rfl
  have hmarker : marker.length = 4 := rfl
  refine beq_eq_false_iff_ne.2 fun he => hne ?_
  rw [← he]
  refine List.mem_of_getElem? (i := offset - headerLength) ?_
  rw [List.getElem?_take_of_lt (by omega), List.getElem?_drop, Nat.add_sub_cancel' (by omega)]
  exact hbyte

/-- The byte behind the token section can be changed from zero. -/
theorem sharesTokens_set (hs : s.LieIn data) (hzero : data[s.code]? = some 0) :
    SharesTokens data (data.set s.code 1) s := by
  have hordered := hs.ordered
  obtain ⟨hlt, -⟩ := List.getElem?_eq_some_iff.1 hzero
  have hfront : (data.set s.code 1).take s.code = data.take s.code := by
    rw [List.take_set, List.set_eq_of_length_le (List.length_take_le s.code data)]
  refine ⟨hfront, ?_, by rw [List.length_set]; exact hs.inside⟩
  rcases Nat.lt_or_ge s.code 22 with hearly | hlate
  · rw [hasMarker_of_getElem? (by omega) hearly hzero (by decide),
      hasMarker_of_getElem? (by omega) hearly (List.getElem?_set_self hlt) (by decide)]
  · exact hasMarker_of_take_eq hfront hlate

/-- Libraries with the same token section have the same keywords. -/
theorem tokens_eq_of_sharesTokens {library' : Library} (hs : s.LieIn data)
    (hother : SharesTokens data other s) (h : parse data = .ok library)
    (h' : parse other = .ok library') : library'.tokens = library.tokens := by
  obtain ⟨records, hstands, htokens⟩ := stands_of_parse hs h
  obtain ⟨records', hstands', htokens'⟩ := stands_of_parse (hother.lieIn hs) h'
  rw [htokens', htokens, hstands.unique hstands' hother.front]

section Acceptance

variable {records : List Record} (hs : s.LieIn data)
  (hfill : s.code + blockTotal data s = s.title) (hstands : Stands data s.tokens s.code records)

include hs hfill hstands

/-- **Data with the same token section is read exactly if the zero word is there**: it ends in the
    section, or the byte behind the section is zero too. -/
theorem exists_parse_iff (hother : SharesTokens data other s) :
    (∃ library, parse other = .ok library) ↔
      finish s.tokens records + 2 ≤ s.code ∨ other[s.code]? = some 0 := by
  rw [← hstands.stands_iff hother.front]
  constructor
  · rintro ⟨library, h⟩
    obtain ⟨records', hstands', -⟩ := stands_of_parse (hother.lieIn hs) h
    obtain rfl := hstands.unique hstands' hother.front
    exact hstands'
  · intro hstands'
    exact exists_parse (hother.lieIn hs) ((hother.blockTotal_eq hs).symm ▸ hfill) hstands'

/-- **The zero word ends in the section exactly if all such data is read.** -/
theorem ends_iff_forall_exists_parse :
    finish s.tokens records + 2 ≤ s.code ↔
      ∀ other, SharesTokens data other s → ∃ library, parse other = .ok library := by
  constructor
  · exact fun hends other hother => (exists_parse_iff hs hfill hstands hother).2 (.inl hends)
  · intro hall
    by_contra hends
    have hinside := hstands.inside
    obtain ⟨rest, hzero⟩ := hstands.zero
    -- the zero word ends behind the section, so its last byte can be changed there
    have hplace : s.code = finish s.tokens records + 1 := by omega
    have hbehind : data[s.code]? = some 0 := by
      rw [hplace, ← List.getElem?_drop, hzero]
      rfl
    obtain ⟨hlt, -⟩ := List.getElem?_eq_some_iff.1 hbehind
    have hother := sharesTokens_set hs hbehind
    have hone :=
      ((exists_parse_iff hs hfill hstands hother).1 (hall _ hother)).resolve_left hends
    rw [List.getElem?_set_self hlt] at hone
    exact absurd hone (by decide)

end Acceptance

/-! ## 6. Keywords in their section -/

/-- The keywords of a library are those of records in its token section. -/
structure TokensOf (data : Bytes) (library : Library) (s : Sections) (records : List Record) :
    Prop where
  sections : s.LieIn data
  tokens : library.tokens = keywordsOf [] records
  /-- Every record lies in the section. -/
  holds : ∀ place record, (place, record) ∈ placed s.tokens records →
    s.tokens ≤ place ∧ Holds data s.code place record
  /-- The zero word behind them starts in the section. -/
  zero : s.tokens ≤ finish s.tokens records ∧ finish s.tokens records < s.code ∧
    between data (finish s.tokens records) (finish s.tokens records + 2) = [0, 0]
  /-- Other data with this section is not read with other keywords. -/
  same : ∀ other library', SharesTokens data other s → parse other = .ok library' →
    library'.tokens = library.tokens
  /-- Whether it is read at all is up to the byte behind the section, where the zero word ends
      there. -/
  accepted : ∀ other, SharesTokens data other s →
    ((∃ library', parse other = .ok library') ↔
      finish s.tokens records + 2 ≤ s.code ∨ other[s.code]? = some 0)
  /-- The zero word ends in the section exactly if all such data is read. -/
  ends : finish s.tokens records + 2 ≤ s.code ↔
    ∀ other, SharesTokens data other s → ∃ library', parse other = .ok library'
  /-- It does so wherever the section starts and ends at even offsets. -/
  even : s.tokens % 2 = 0 → s.code % 2 = 0 → finish s.tokens records + 2 ≤ s.code

/-- **The keywords of a library are read from records in its token section**, and the zero word
    behind them from there too, but for its last byte. So no keyword depends on the code or the
    titles; and that the keywords are read does not either, exactly if the zero word ends in the
    section. -/
theorem tokens_of_parse (h : parse data = .ok library) :
    ∃ s records, TokensOf data library s records := by
  obtain ⟨s, hsections, hcode⟩ := readCode_of_parse h
  have hs := readSections_eq_ok.1 hsections
  have hfill := (exists_readCode_iff hs).1 ⟨_, hcode⟩
  obtain ⟨records, hstands, htokens⟩ := stands_of_parse hs h
  have hinside := hstands.inside
  obtain ⟨rest, hzero⟩ := hstands.zero
  refine ⟨s, records, ?_⟩
  constructor
  case sections => exact hs
  case tokens => exact htokens
  case holds =>
    exact fun place record hm => ⟨le_of_mem_placed hm, hstands.holds place record hm⟩
  case zero =>
    refine ⟨le_finish s.tokens records, hinside, ?_⟩
    rw [between, hzero, Nat.add_sub_cancel_left]
    rfl
  case same => exact fun other library' hother => tokens_eq_of_sharesTokens hs hother h
  case accepted => exact fun other => exists_parse_iff hs hfill hstands
  case ends => exact ends_iff_forall_exists_parse hs hfill hstands
  case even =>
    intro hstart hlimit
    have heven := @finish_even s.tokens records (.inl hstart)
    omega

/-- A library with one keyword, whose token section ends with a single zero byte. The code behind it
    starts with the given byte. -/
def loneZero (byte : UInt8) : Bytes :=
  [0, 0, 0, 2, 0, 0, 0, 11, 0, 0, 0, 6, 0, 0, 0, 0, 0, 0, 0, 3]
    ++ [0xFF, 0xFF, 0, 0, 0x6F, 0x6E, 0xE5, 0x30, 0xFF, 0, 0] ++ [byte, 0x3C, 0, 1, 0x4E, 0x75]

def loneSections : Sections :=
  ⟨18, 20, 31, 37, 37⟩

theorem loneSections_lieIn (byte : UInt8) : loneSections.LieIn (loneZero byte) :=
  readSections_eq_ok.1 rfl

theorem sharesTokens_loneZero (byte other : UInt8) :
    SharesTokens (loneZero byte) (loneZero other) loneSections :=
  ⟨rfl, rfl, Nat.le_refl 37⟩

/-- The code starts with a zero byte: it and the last byte of the section are the zero word. -/
theorem parse_loneZero : parse (loneZero 0) = .ok {
      alwaysRun := false
      ap20 := false
      codeBlocks := [[0, 0x3C, 0, 1, 0x4E, 0x75]]
      tokens := [⟨-1, 0, "one", "0", -1⟩]
      title := []
    } := by
  have hrecord : TokenTable.readRecord 31 ⟨(loneZero 0).drop 20, 20⟩
      = .ok (some (⟨0xFFFF, 0, [0x6F, 0x6E, 0x65], [0x30], 0xFF⟩, ⟨(loneZero 0).drop 30, 30⟩)) :=
    rfl
  have htokens : TokenTable.read (loneZero 0) 20 31 = .ok [⟨-1, 0, "one", "0", -1⟩] :=
    readFrom_some hrecord (readFrom_none rfl)
  obtain ⟨flag, hflag, hparse⟩ := parse_of_lieIn (loneSections_lieIn 0)
  obtain rfl : 0 = flag := Except.ok.inj hflag
  exact hparse.trans (bind_eq_ok.2 ⟨_, rfl, bind_eq_ok.2 ⟨_, htokens, rfl⟩⟩)

/-- The code starts with another byte, and the table goes on in it. -/
theorem parse_loneZero_two : parse (loneZero 2) = .error (.unterminatedTokens 34) := by
  have htokens : TokenTable.read (loneZero 2) 20 31 = .error (.unterminatedTokens 34) := by
    rw [TokenTable.read, readFrom_eq]
    show (readFrom 31 [0x6F, 0x6E, 0x65] ⟨(loneZero 2).drop 30, 30⟩).map _ = _
    rw [readFrom_eq]
    rfl
  obtain ⟨flag, -, hparse⟩ := parse_of_lieIn (loneSections_lieIn 2)
  rw [hparse]
  show (TokenTable.read (loneZero 2) 20 31 >>= _) = _
  rw [htokens]
  rfl

/-- Its keyword lies in its section, and the zero word behind it does not. -/
theorem tokens_of_parse_loneZero :
    ∃ library, parse (loneZero 0) = .ok library ∧
      ∃ s records, TokensOf (loneZero 0) library s records ∧
        ¬ finish s.tokens records + 2 ≤ s.code := by
  refine ⟨_, parse_loneZero, ?_⟩
  obtain ⟨s, records, h⟩ := tokens_of_parse parse_loneZero
  refine ⟨s, records, h, fun hends => ?_⟩
  obtain rfl := h.sections.unique (loneSections_lieIn 0)
  obtain ⟨library, hother⟩ := h.ends.1 hends _ (sharesTokens_loneZero 0 2)
  rw [parse_loneZero_two] at hother
  cases hother

/-- **The code decides whether the keywords are read**: of two libraries with the same header, table
    of lengths and token section, one is read and the other is refused for its keywords, as the
    zero word of the first one ends in its code. -/
theorem tokens_depend_on_code :
    loneSections.LieIn (loneZero 0) ∧ SharesTokens (loneZero 0) (loneZero 2) loneSections ∧
      (∃ library, parse (loneZero 0) = .ok library) ∧
      parse (loneZero 2) = .error (.unterminatedTokens 34) ∧
      ∃ records, Stands (loneZero 0) loneSections.tokens loneSections.code records ∧
        ¬ finish loneSections.tokens records + 2 ≤ loneSections.code := by
  refine ⟨loneSections_lieIn 0, sharesTokens_loneZero 0 2, ⟨_, parse_loneZero⟩,
    parse_loneZero_two, ?_⟩
  obtain ⟨records, hstands, -⟩ := stands_of_parse (loneSections_lieIn 0) parse_loneZero
  refine ⟨records, hstands, fun hends => ?_⟩
  have hother := (hstands.stands_iff (sharesTokens_loneZero 0 2).front).2 (.inl hends)
  obtain ⟨library, hread⟩ := exists_parse (loneSections_lieIn 2) rfl hother
  rw [parse_loneZero_two] at hread
  cases hread

end AmigaBinary.Library
