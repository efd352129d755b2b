import AmigaBinary.Library.TokenTable
import AmigaBinary.Proofs.Cursor

/-!
# Writing and reading token tables

A record is written with the highest bit set in the last byte of its name, and with a byte behind it
if it would not end at an even offset (`Entry.bytes`). It is read as it was written
(`readRecord_bytes`), and so is a table of records, which a zero word ends (`readFrom_table`). The
name of a keyword may be that of the record before (`keywordName`).
-/

namespace AmigaBinary.TokenTable

variable {limit position : Nat}

/-! ## 1. Names -/

/-- The bytes of a name in a record. The empty name is written like a NUL. -/
def spellName : Bytes → Bytes
  | [] => [0x80]
  | [byte] => [byte ||| 0x80]
  | byte :: next :: name => byte :: spellName (next :: name)

theorem spellName_pos (name : Bytes) : 0 < (spellName name).length := by
  match name with
  | [] => exact Nat.one_pos
  | [_] => exact Nat.one_pos
  | _ :: _ :: _ => exact Nat.succ_pos _

theorem le_or_last {byte : UInt8} (h : byte < 0x80) : 0x80 ≤ byte ||| 0x80 :=
  Bytes.of_lt (p := fun byte => 0x80 ≤ byte ||| 0x80) (n := 0x80) (by decide)
    (UInt8.lt_iff_toNat_lt.1 h)

theorem and_or_last {byte : UInt8} (h : byte < 0x80) : (byte ||| 0x80) &&& 0x7F = byte :=
  Bytes.of_lt (p := fun byte => (byte ||| 0x80) &&& 0x7F = byte) (n := 0x80) (by decide)
    (UInt8.lt_iff_toNat_lt.1 h)

theorem readName_last {byte : UInt8} (h : 0x80 ≤ byte) (hlimit : position < limit) (rest : Bytes) :
    readName limit (byte :: rest) position = .ok ([byte &&& 0x7F], ⟨rest, position + 1⟩) := by
  rw [readName, if_neg (Nat.not_le_of_lt hlimit), if_pos h]

theorem readName_cons {byte : UInt8} {name rest : Bytes} {next : Cursor} (h : byte < 0x80)
    (hlimit : position < limit) (hname : readName limit rest (position + 1) = .ok (name, next)) :
    readName limit (byte :: rest) position = .ok (byte :: name, next) := by
  rw [readName, if_neg (Nat.not_le_of_lt hlimit), if_neg (UInt8.not_le.2 h), hname]

/-- **A name of 7-bit characters is read from its bytes.** A NUL is read for the empty one. -/
theorem readName_spellName {name : Bytes} (h : ∀ byte ∈ name, byte < 0x80) (rest : Bytes)
    (hlimit : position + (spellName name).length ≤ limit) :
    readName limit (spellName name ++ rest) position
      = .ok (if name = [] then [0] else name,
          ⟨rest, position + (spellName name).length⟩) := by
  induction name using spellName.induct generalizing position with
  | case1 => exact readName_last (by decide) hlimit rest
  | case2 byte =>
      have hbyte := h byte List.mem_cons_self
      have hlast := readName_last (le_or_last hbyte) hlimit rest
      rw [and_or_last hbyte] at hlast
      exact hlast
  | case3 byte next name ih =>
      have hpos := spellName_pos (next :: name)
      rw [spellName, List.length_cons] at hlimit
      have hrest := @ih (position + 1) (fun b hb => h b (List.mem_cons_of_mem byte hb)) (by omega)
      rw [if_neg (List.cons_ne_nil next name)] at hrest
      rw [spellName, List.cons_append, if_neg (List.cons_ne_nil byte _), List.length_cons]
      have hplace : position + ((spellName (next :: name)).length + 1)
          = position + 1 + (spellName (next :: name)).length := by omega
      rw [hplace]
      exact readName_cons (h byte List.mem_cons_self) (by omega) hrest

theorem rawName_of_read {name : Bytes} (h : name ≠ [0]) :
    rawName (if name = [] then [0] else name) = name := by
  unfold rawName
  by_cases hempty : name = []
  · rw [if_pos hempty, if_pos rfl, hempty]
  · rw [if_neg hempty, if_neg h]

/-! ## 2. Signatures -/

/-- **A signature is read up to the byte that ends it.** -/
theorem readSignature_append {signature : Bytes} {last : UInt8}
    (h : ∀ byte ∈ signature, byte ≠ 0 ∧ byte < 0x80) (hlast : last = 0 ∨ 0x80 ≤ last)
    (rest : Bytes) (hlimit : position + signature.length < limit) :
    readSignature limit (signature ++ last :: rest) position
      = .ok (signature, last, ⟨rest, position + (signature.length + 1)⟩) := by
  induction signature generalizing position with
  | nil =>
      have hlimit : ¬ limit ≤ position := Nat.not_le_of_lt hlimit
      rw [List.nil_append, readSignature, if_neg hlimit, if_pos hlast]
      rfl
  | cons byte signature ih =>
      obtain ⟨hzero, hbyte⟩ := h byte List.mem_cons_self
      rw [List.length_cons] at hlimit
      have hrest := @ih (position + 1) (fun b hb => h b (List.mem_cons_of_mem byte hb)) (by omega)
      have hgoes : ¬ (byte = 0 ∨ 0x80 ≤ byte) := by
        rintro (hb | hb)
        · exact hzero hb
        · exact UInt8.not_le.2 hbyte hb
      have hplace : position + 1 + (signature.length + 1)
          = position + (signature.length + 1 + 1) := by omega
      rw [List.cons_append, readSignature, if_neg (by omega), if_neg hgoes, hrest, hplace,
        List.length_cons]

/-! ## 3. Records -/

/-- A record, and the byte that stands behind it if it does not end at an even offset. -/
structure Entry extends Record where
  pad : UInt8
  deriving DecidableEq, Repr

namespace Entry

/-- The parts of a record, one behind the other. -/
def contents (e : Entry) : Bytes :=
  Bytes.ofWord16 e.instruction ++ (Bytes.ofWord16 e.function ++ (spellName e.name
    ++ (e.signature ++ [e.terminator])))

/-- The bytes of a record in a table. -/
def bytes (e : Entry) : Bytes :=
  e.contents ++ if e.contents.length % 2 = 0 then [] else [e.pad]

/-- A record that can be told from the end of the table, with a name of 7-bit characters that is not
    written like the empty one, and a signature of positive bytes that ends at one which is not. -/
structure WellFormed (e : Entry) : Prop where
  instruction : e.instruction ≠ 0
  name : e.name ≠ [0]
  ascii : ∀ byte ∈ e.name, byte < 0x80
  signature : ∀ byte ∈ e.signature, byte ≠ 0 ∧ byte < 0x80
  terminator : e.terminator = 0 ∨ 0x80 ≤ e.terminator

theorem wellFormed_iff (e : Entry) :
    (e.instruction ≠ 0 ∧ e.name ≠ [0] ∧ e.name.all (· < 0x80) = true ∧
      (e.signature.all fun byte => byte ≠ 0 ∧ byte < 0x80) = true ∧
      (e.terminator = 0 ∨ 0x80 ≤ e.terminator)) ↔ e.WellFormed := by
  simp only [List.all_eq_true, decide_eq_true_eq]
  exact ⟨fun ⟨hi, hn, ha, hs, ht⟩ => ⟨hi, hn, ha, hs, ht⟩,
    fun ⟨hi, hn, ha, hs, ht⟩ => ⟨hi, hn, ha, hs, ht⟩⟩

instance (e : Entry) : Decidable e.WellFormed :=
  decidable_of_iff _ e.wellFormed_iff

theorem length_contents (e : Entry) :
    e.contents.length = 4 + (spellName e.name).length + (e.signature.length + 1) := by
  unfold contents
  simp only [List.length_append, Bytes.length_ofWord16, List.length_singleton]
  omega

theorem even_bytes (e : Entry) : e.bytes.length % 2 = 0 := by
  unfold bytes
  split
  · rw [List.append_nil]
    assumption
  · rw [List.length_append, List.length_singleton]
    omega

theorem length_bytes_le (e : Entry) : e.contents.length ≤ e.bytes.length := by
  unfold bytes
  rw [List.length_append]
  exact Nat.le_add_right _ _

end Entry

variable {e : Entry}

/-- The parts of a record are read one behind the other. -/
theorem readRecord_contents (h : e.WellFormed) (tail : Bytes)
    (hlimit : position + e.contents.length ≤ limit) :
    readRecord limit ⟨e.contents ++ tail, position⟩
      = .ok (some (e.toRecord, align ⟨tail, position + e.contents.length⟩)) := by
  have hlength := e.length_contents
  have hcontents : e.contents ++ tail = Bytes.ofWord16 e.instruction
      ++ (Bytes.ofWord16 e.function ++ (spellName e.name
        ++ (e.signature ++ e.terminator :: tail))) := by
    rw [Entry.contents]
    simp only [List.append_assoc, List.cons_append, List.nil_append]
  have hname := @readName_spellName limit (position + 2 + 2) e.name h.ascii
    (e.signature ++ e.terminator :: tail) (by omega)
  have hsignature := @readSignature_append limit (position + 2 + 2 + (spellName e.name).length)
    e.signature e.terminator h.signature h.terminator tail (by omega)
  have hplace : position + 2 + 2 + (spellName e.name).length + (e.signature.length + 1)
      = position + e.contents.length := by omega
  rw [hplace] at hsignature
  rw [readRecord, if_neg (by dsimp only; omega), hcontents]
  refine bind_eq_ok.2 ⟨(e.instruction, ⟨_, position + 2⟩),
    Cursor.word16_eq_ok.2 ⟨rfl, rfl⟩, ?_⟩
  dsimp only
  rw [if_neg h.instruction]
  refine bind_eq_ok.2 ⟨(e.function, ⟨_, position + 2 + 2⟩), Cursor.word16_eq_ok.2 ⟨rfl, rfl⟩,
    bind_eq_ok.2 ⟨_, hname, bind_eq_ok.2 ⟨_, hsignature, ?_⟩⟩⟩
  dsimp only
  rw [rawName_of_read h.name]

/-- **A record is read as it was written**, and the padding behind it is passed over. -/
theorem readRecord_bytes (h : e.WellFormed) (rest : Bytes) (heven : position % 2 = 0)
    (hlimit : position + e.bytes.length ≤ limit) :
    readRecord limit ⟨e.bytes ++ rest, position⟩
      = .ok (some (e.toRecord, ⟨rest, position + e.bytes.length⟩)) := by
  have hle := e.length_bytes_le
  have hcontents : e.bytes ++ rest
      = e.contents ++ ((if e.contents.length % 2 = 0 then [] else [e.pad]) ++ rest) :=
    List.append_assoc ..
  have halign : align ⟨(if e.contents.length % 2 = 0 then [] else [e.pad]) ++ rest,
      position + e.contents.length⟩ = ⟨rest, position + e.bytes.length⟩ := by
    unfold align Entry.bytes
    dsimp only
    by_cases hodd : e.contents.length % 2 = 0
    · rw [if_pos (by omega), if_pos hodd, List.append_nil]
      rfl
    · rw [if_neg (by omega), if_neg hodd, List.length_append]
      rfl
  rw [hcontents, readRecord_contents h _ (by omega), halign]

theorem readRecord_zero (rest : Bytes) (hlimit : position < limit) :
    readRecord limit ⟨Bytes.ofWord16 0 ++ rest, position⟩ = .ok none := by
  rw [readRecord, if_neg (Nat.not_le_of_lt hlimit)]
  exact bind_eq_ok.2 ⟨(0, ⟨rest, position + 2⟩), Cursor.word16_eq_ok.2 ⟨rfl, rfl⟩, rfl⟩

/-! ## 4. Keywords -/

/-- The name of a keyword: the name of the record before, if this one has none and that one is
    marked, and else the name of the record; without the mark. -/
def keywordName (previous name : Bytes) : Bytes :=
  if name = [] ∧ previous.head? = some mark then previous.tail
  else if name.head? = some mark then name.tail
  else name

/-- The keyword that a record behind another one stands for. -/
def Record.keyword (previous : Bytes) (record : Record) : Token where
  instruction := Bytes.signed16 record.instruction
  function := Bytes.signed16 record.function
  name := Text.latin1 (keywordName previous record.name)
  signature := Text.latin1 record.signature
  terminator := Bytes.signed8 record.terminator

/-- The keywords that records stand for, each with the name of the one before it. -/
def keywords (previous : Bytes) (entries : List Entry) : List Token :=
  List.zipWith Record.keyword (previous :: entries.map (·.name)) (entries.map (·.toRecord))

theorem isMarked_iff {name : Bytes} : isMarked name = true ↔ name.head? = some mark := by
  cases name with
  | nil => simp [isMarked]
  | cons byte name => simp [isMarked]

theorem unmarked_eq (name : Bytes) :
    unmarked name = if name.head? = some mark then name.tail else name := by
  cases name with
  | nil => rfl
  | cons byte name => simp [unmarked]

theorem resolveName_eq (name previous : Bytes) :
    resolveName name previous = keywordName previous name := by
  unfold resolveName keywordName
  simp only [isMarked_iff, unmarked_eq]
  by_cases h : name = [] ∧ previous.head? = some mark
  · rw [if_pos h, if_pos h, if_pos h.2]
  · rw [if_neg h, if_neg h]

theorem token_eq_keyword (record : Record) (previous : Bytes) :
    record.token previous = record.keyword previous := by
  unfold Record.token Record.keyword
  rw [resolveName_eq]

/-! ## 5. Tables -/

/-- The bytes of a table. -/
def table (entries : List Entry) : Bytes :=
  entries.flatMap Entry.bytes ++ Bytes.ofWord16 0

theorem readFrom_none {previous : Bytes} {cursor : Cursor}
    (h : readRecord limit cursor = .ok none) : readFrom limit previous cursor = .ok [] := by
  rw [readFrom]
  split
  · rename_i he
    rw [h] at he
    cases he
  · rfl
  · rename_i he
    rw [h] at he
    cases he

theorem readFrom_some {previous : Bytes} {cursor next : Cursor} {record : Record}
    {tokens : List Token} (h : readRecord limit cursor = .ok (some (record, next)))
    (ht : readFrom limit record.name next = .ok tokens) :
    readFrom limit previous cursor = .ok (record.token previous :: tokens) := by
  rw [readFrom]
  split
  · rename_i he
    rw [h] at he
    cases he
  · rename_i he
    rw [h] at he
    cases he
  · rename_i he
    rw [h] at he
    cases he
    rw [ht]

/-- **A table is read as the keywords of its records.** -/
theorem readFrom_table {entries : List Entry} (h : ∀ e ∈ entries, e.WellFormed) (previous : Bytes)
    (rest : Bytes) (heven : position % 2 = 0)
    (hlimit : position + (table entries).length ≤ limit) :
    readFrom limit previous ⟨table entries ++ rest, position⟩
      = .ok (keywords previous entries) := by
  induction entries generalizing previous position with
  | nil =>
      have hpos : 0 < (table []).length := by decide
      exact readFrom_none (readRecord_zero rest (by omega))
  | cons e entries ih =>
      have htable : table (e :: entries) = e.bytes ++ table entries := by
        rw [table, List.flatMap_cons, List.append_assoc]
        rfl
      have he := e.even_bytes
      rw [htable, List.length_append] at hlimit
      have hrest := @ih (position + e.bytes.length)
        (fun e' he' => h e' (List.mem_cons_of_mem e he')) e.name (by omega) (by omega)
      have hrecord := @readRecord_bytes limit position e (h e List.mem_cons_self)
        (table entries ++ rest) heven (by omega)
      rw [htable, List.append_assoc, readFrom_some hrecord hrest, token_eq_keyword]
      rfl

end AmigaBinary.TokenTable
