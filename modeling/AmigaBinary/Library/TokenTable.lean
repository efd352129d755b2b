import AmigaBinary.Cursor
import AmigaBinary.Library.Basic
import AmigaBinary.Text.Latin1

/-!
# Token tables

A record of the token table has the numbers of two routines, a name whose last byte has its
highest bit set, and a signature that ends at a byte which is not positive. Records start at even
offsets, and a zero word ends the table. A keyword with several signatures has a record for each:
the first name starts with an exclamation mark, the others are empty.
-/

namespace AmigaBinary.TokenTable

/-! ## 1. Names and signatures -/

/-- A name, without the highest bit of its last byte. The table ends at offset `limit`. -/
def readName (limit : Nat) : Bytes → Nat → Except Error (Bytes × Cursor)
  | [], position => .error (.unterminatedTokens position)
  | byte :: rest, position =>
    if limit ≤ position then .error (.unterminatedTokens position)
    else if 0x80 ≤ byte then .ok ([byte &&& 0x7F], ⟨rest, position + 1⟩)
    else
      match readName limit rest (position + 1) with
      | .ok (name, cursor) => .ok (byte :: name, cursor)
      | .error e => .error e

/-- A signature, and the byte that ends it. -/
def readSignature (limit : Nat) : Bytes → Nat → Except Error (Bytes × UInt8 × Cursor)
  | [], position => .error (.unterminatedTokens position)
  | byte :: rest, position =>
    if limit ≤ position then .error (.unterminatedTokens position)
    else if byte = 0 ∨ 0x80 ≤ byte then .ok ([], byte, ⟨rest, position + 1⟩)
    else
      match readSignature limit rest (position + 1) with
      | .ok (signature, last, cursor) => .ok (byte :: signature, last, cursor)
      | .error e => .error e

/-- The name in a record. A single NUL stands for the empty name. -/
def rawName (name : Bytes) : Bytes :=
  if name = [0] then [] else name

/-- The byte in front of a name that others share. -/
def mark : UInt8 := 0x21

/-- A name without the mark in front of it. -/
def unmarked : Bytes → Bytes
  | [] => []
  | byte :: name => if byte = mark then name else byte :: name

/-- Whether a name has the mark in front of it. -/
def isMarked : Bytes → Bool
  | [] => false
  | byte :: _ => byte = mark

/-- The name of a keyword, from the name in its record and in the one before it. -/
def resolveName (raw previous : Bytes) : Bytes :=
  if raw = [] ∧ isMarked previous then unmarked previous else unmarked raw

/-! ## 2. Records -/

/-- A record: the numbers of its routines, its name and its signature. -/
structure Record where
  instruction : UInt16
  function : UInt16
  name : Bytes
  signature : Bytes
  terminator : UInt8
  deriving DecidableEq, Repr

/-- The place of the next record, at an even offset. -/
def align (cursor : Cursor) : Cursor :=
  if cursor.position % 2 = 0 then cursor else ⟨cursor.rest.drop 1, cursor.position + 1⟩

/-- The record at a cursor, or the zero word that ends the table. -/
def readRecord (limit : Nat) (cursor : Cursor) : Except Error (Option (Record × Cursor)) :=
  if limit ≤ cursor.position then .error (.unterminatedTokens cursor.position)
  else do
    let (instruction, cursor) ← cursor.word16
    if instruction = 0 then .ok none
    else
      let (function, cursor) ← cursor.word16
      let (name, cursor) ← readName limit cursor.rest cursor.position
      let (signature, terminator, cursor) ← readSignature limit cursor.rest cursor.position
      .ok (some (⟨instruction, function, rawName name, signature, terminator⟩, align cursor))

/-- The keyword of a record, where `previous` is the name in the record before it. -/
def Record.token (record : Record) (previous : Bytes) : Token where
  instruction := Bytes.signed16 record.instruction
  function := Bytes.signed16 record.function
  name := Text.latin1 (resolveName record.name previous)
  signature := Text.latin1 record.signature
  terminator := Bytes.signed8 record.terminator

/-! ## 3. Every record takes something -/

theorem length_of_readName {limit position : Nat} {bytes name : Bytes} {next : Cursor}
    (h : readName limit bytes position = .ok (name, next)) : next.rest.length < bytes.length := by
  induction bytes generalizing position name with
  | nil => simp [readName] at h
  | cons byte rest ih =>
      unfold readName at h
      split at h
      · simp at h
      · split at h
        · simp only [Except.ok.injEq, Prod.mk.injEq] at h
          obtain ⟨-, rfl⟩ := h
          simp
        · split at h
          · rename_i n c hc
            simp only [Except.ok.injEq, Prod.mk.injEq] at h
            obtain ⟨-, rfl⟩ := h
            have := ih hc
            simp only [List.length_cons]
            omega
          · simp at h

theorem length_of_readSignature {limit position : Nat} {bytes signature : Bytes} {last : UInt8}
    {next : Cursor} (h : readSignature limit bytes position = .ok (signature, last, next)) :
    next.rest.length < bytes.length := by
  induction bytes generalizing position signature last with
  | nil => simp [readSignature] at h
  | cons byte rest ih =>
      unfold readSignature at h
      split at h
      · simp at h
      · split at h
        · simp only [Except.ok.injEq, Prod.mk.injEq] at h
          obtain ⟨-, -, rfl⟩ := h
          simp
        · split at h
          · rename_i s l c hc
            simp only [Except.ok.injEq, Prod.mk.injEq] at h
            obtain ⟨-, -, rfl⟩ := h
            have := ih hc
            simp only [List.length_cons]
            omega
          · simp at h

theorem length_align (cursor : Cursor) : (align cursor).rest.length ≤ cursor.rest.length := by
  unfold align
  split
  · exact Nat.le_refl _
  · simp only [List.length_drop]
    omega

theorem length_of_readRecord {limit : Nat} {cursor next : Cursor} {record : Record}
    (h : readRecord limit cursor = .ok (some (record, next))) :
    next.rest.length < cursor.rest.length := by
  unfold readRecord at h
  split at h
  · simp at h
  · simp only [bind, Except.bind] at h
    split at h
    · simp at h
    · rename_i v hv
      have h1 := Cursor.length_of_word16 hv
      split at h
      · simp at h
      · split at h
        · simp at h
        · rename_i w hw
          have h2 := Cursor.length_of_word16 hw
          split at h
          · simp at h
          · rename_i x hx
            have h3 := length_of_readName hx
            split at h
            · simp at h
            · rename_i y hy
              have h4 := length_of_readSignature hy
              simp only [Except.ok.injEq, Option.some.injEq, Prod.mk.injEq] at h
              obtain ⟨-, rfl⟩ := h
              have h5 := Nat.le_trans (length_align y.2.2) (Nat.le_of_lt h4)
              exact Nat.lt_of_le_of_lt h5 (by omega)

/-! ## 4. Tables -/

/-- The keywords from a cursor up to the end of the table. -/
def readFrom (limit : Nat) (previous : Bytes) (cursor : Cursor) : Except Error (List Token) :=
  match _h : readRecord limit cursor with
  | .error e => .error e
  | .ok none => .ok []
  | .ok (some (record, next)) =>
    match readFrom limit record.name next with
    | .error e => .error e
    | .ok tokens => .ok (record.token previous :: tokens)
termination_by cursor.rest.length
decreasing_by exact length_of_readRecord _h

/-- The keywords of the table that starts at offset `start` and ends in front of offset `limit`. -/
def read (data : Bytes) (start limit : Nat) : Except Error (List Token) :=
  readFrom limit [] ⟨data.drop start, start⟩

end AmigaBinary.TokenTable
