import AmigaBinary.Bytes

/-!
# Sections of a routine

The routines of a library do not refer to each other by address. Where one does, its code holds an
escape: a word of the form `$FxF1` with the kind of escape in its second digit, and operands behind
it. A routine is a list of escapes and of stretches of plain code between them.

    $F0F1 tag arg routine    extended jump
    $F1F1 tag arg routine    extended call
    $F2F1 routine .. $FEF1   branches
    $FFF1 xxxx               plain data follows
-/

namespace AmigaBinary.Routine

open M68k

/-! ## 1. Sections -/

/-- A piece of a routine. -/
inductive Section where
  /-- Plain code. -/
  | literal (bytes : Bytes)
  /-- A branch to a routine of the same library. -/
  | branch (mnemonic : Mnemonic) (target : UInt16)
  /-- A jump to or a call of a routine; library 0 stands for the same library. -/
  | library (call : Bool) (library : UInt8) (routine : UInt16)
  /-- A jump or call through an address register that is loaded with a routine address. -/
  | register (call : Bool) (reg : UInt8) (routine : UInt16)
  /-- An address register is loaded with a routine address. -/
  | loadAddress (reg : UInt8) (routine : UInt16)
  /-- All that follows is data. -/
  | rawData
  deriving DecidableEq, Repr

namespace Section

/-- The bytes that a section takes, in a library as well as in linked code. -/
def length : Section → Nat
  | .literal bytes => bytes.length
  | .branch _ _ | .rawData => 4
  | .library _ _ _ | .register _ _ _ | .loadAddress _ _ => 6

/-- The library and the number of the routine that a section refers to; library 0 stands for the
    same library. -/
def reference? : Section → Option (UInt8 × UInt16)
  | .branch _ target => some (0, target)
  | .library _ owner routine => some (owner, routine)
  | .register _ _ routine | .loadAddress _ routine => some (0, routine)
  | .literal _ | .rawData => none

end Section

/-! ## 2. Escapes -/

/-- The conditions that have a branch escape, from kind 2 on. -/
def escapeConditions : List Condition :=
  [.always, .never, .equal, .notEqual, .carrySet, .carryClear, .lessThan, .greaterOrEqual,
   .lowerOrSame, .higher, .lessOrEqual, .plus, .minus]

/-- The kind of escape that a word announces, by its two bytes. -/
def escapeKind? (high low : UInt8) : Option Nat :=
  if high &&& 0xF0 = 0xF0 ∧ low = 0xF1 then some (high &&& 0x0F).toNat else none

/-- The section of an extended escape. Tag 0 names a library, tag 1 a register: below 8 for a jump
    or call through it, from 8 to 15 for a load of register number less 8. -/
def extended? (call : Bool) (tag argument : UInt8) (routine : UInt16) : Option Section :=
  if tag = 0 then some (.library call argument routine)
  else if tag = 1 ∧ argument < 8 then some (.register call argument routine)
  else if tag = 1 ∧ argument < 16 then some (.loadAddress (argument - 8) routine)
  else none

/-- The section of a short escape: a branch, or the mark in front of data. -/
def short? (kind : Nat) (operand : UInt16) : Option Section :=
  if kind = 15 then some .rawData
  else (escapeConditions[kind - 2]?).map fun condition => .branch (.branch condition) operand

/-- The escape at the front of a piece of code, and the code behind it. -/
def readEscape? : Bytes → Option (Section × Bytes)
  | high :: low :: a :: b :: rest =>
    match escapeKind? high low with
    | none => none
    | some kind =>
      if kind < 2 then
        match rest with
        | c :: d :: rest =>
            (extended? (kind = 1) a b (Bytes.word16 c d)).map fun escape => (escape, rest)
        | _ => none
      else (short? kind (Bytes.word16 a b)).map fun escape => (escape, rest)
  | _ => none

theorem length_of_readEscape? {code rest : Bytes} {s : Section}
    (h : readEscape? code = some (s, rest)) : rest.length < code.length := by
  unfold readEscape? at h
  split at h
  · split at h
    · simp at h
    · split at h
      · split at h
        · simp only [Option.map_eq_some_iff, Prod.mk.injEq] at h
          obtain ⟨_, _, _, rfl⟩ := h
          simp only [List.length_cons]
          omega
        · simp at h
      · simp only [Option.map_eq_some_iff, Prod.mk.injEq] at h
        obtain ⟨_, _, _, rfl⟩ := h
        simp only [List.length_cons]
        omega
  · simp at h

/-! ## 3. Scanning -/

/-- Plain code in front of a list of sections. It joins a stretch of plain code that comes first,
    and empty code is left out. -/
def prependCode (bytes : Bytes) : List Section → List Section
  | .literal more :: sections => .literal (bytes ++ more) :: sections
  | sections => if bytes = [] then sections else .literal bytes :: sections

/-- The sections of a routine. Escapes lie at even offsets; what only looks like one is plain code,
    and so is all that follows the mark in front of data. -/
def scan (code : Bytes) : List Section :=
  match _h : readEscape? code with
  | some (.rawData, rest) => .rawData :: prependCode rest []
  | some (escape, rest) => escape :: scan rest
  | none =>
    match code with
    | a :: b :: rest => prependCode [a, b] (scan rest)
    | _ => prependCode code []
termination_by code.length
decreasing_by
  · exact length_of_readEscape? _h
  · simp only [List.length_cons]
    omega

/-! ## 4. Written form -/

/-- An extended escape. -/
def extendedEscape (call : Bool) (tag argument : UInt8) (routine : UInt16) : Bytes :=
  [if call then 0xF1 else 0xF0, 0xF1, tag, argument] ++ Bytes.ofWord16 routine

/-- The kind of the escape of a branch; branches without an escape have kind 15, like data. -/
def branchKind : Mnemonic → Nat
  | .branch condition => escapeConditions.idxOf condition + 2
  | _ => 15

/-- The written form of a section. The operand of the mark in front of data and the kind of jump
    of an address load do not matter and are zero. -/
def Section.write : Section → Bytes
  | .literal bytes => bytes
  | .branch mnemonic target =>
      [0xF0 ||| UInt8.ofNat (branchKind mnemonic), 0xF1] ++ Bytes.ofWord16 target
  | .library call owner routine => extendedEscape call 0 owner routine
  | .register call reg routine => extendedEscape call 1 reg routine
  | .loadAddress reg routine => extendedEscape false 1 (reg + 8) routine
  | .rawData => [0xFF, 0xF1, 0, 0]

end AmigaBinary.Routine
