import AmigaBinary.Program.Split
import AmigaBinary.Proofs.Success
import AmigaBinary.Proofs.Words
import Mathlib.Data.List.Forall2

/-!
# The hunks of a program, and the program they make

A bank has a hunk of its own. What reading it leaves out is a longword in front of it and one word
of its header (`Bank.Gaps`). With these the hunk is rebuilt from the bank, and reading takes apart
exactly what is rebuilt so from a bank in normal form (`Bank.read_eq_ok`). A program is made of its
hunks if there are enough of them, if the words of its loader are there, and if each hunk without a
place of its own is that of a bank (`Program.Splittable`). All hunks are then found in the program
(`Program.SplitFrom`).
-/

namespace AmigaBinary

/-! ## 1. Banks in their hunks -/

namespace Loader

/-- What the compiler puts in front of a bank. -/
def lead : Loader → UInt32 → Bytes
  | .classic, word => Bytes.ofWord32 word
  | .pro, _ => []

/-- The length of what the compiler puts in front of a bank. -/
def leadLength : Loader → Nat
  | .classic => 4
  | .pro => 0

/-- The bytes in front of the contents of a numbered bank. -/
def bankHeaderLength : Loader → Nat
  | .classic => 4
  | .pro => 8

/-- The bytes of a loader up to the end of the last word that is read from it. -/
def leastLength : Loader → Nat
  | .classic => 4
  | .pro => 12

end Loader

namespace Bank

/-- What reading a bank leaves out. -/
structure Gaps where
  /-- The longword in front of a bank of the first releases. -/
  lead : UInt32
  /-- The word behind those that are read from the header of a numbered bank. -/
  unused : UInt16

/-- A bank without what the compiler puts in front of it. -/
def image (loader : Loader) (unused : UInt16) : Bank → Bytes
  | .sprites contents | .icons contents => contents
  | .numbered number flags contents =>
    match loader with
    | .classic => Bytes.ofWord16 number.toUInt16 ++ (Bytes.ofWord16 unused ++ contents)
    | .pro => Bytes.ofWord32 number ++ (Bytes.ofWord16 flags ++ (Bytes.ofWord16 unused ++ contents))

/-- The hunk of a bank. -/
def hunk (loader : Loader) (gaps : Gaps) (bank : Bank) : Bytes :=
  loader.lead gaps.lead ++ bank.image loader gaps.unused

/-- The number and the flags fit the header of a numbered bank. -/
def HeaderFits : Loader → UInt32 → UInt16 → Prop
  | .classic, number, flags => number.toNat < 0x10000 ∧ flags = 0
  | .pro, _, _ => True

/-- A bank in normal form: it has its magic, or it has none and its header has room for its number
    and its flags. -/
def Proper (loader : Loader) (unused : UInt16) : Bank → Prop
  | .sprites contents => spriteMagic <+: contents
  | .icons contents => iconMagic <+: contents
  | .numbered number flags contents => HeaderFits loader number flags ∧
      ¬ spriteMagic <+: (numbered number flags contents).image loader unused ∧
      ¬ iconMagic <+: (numbered number flags contents).image loader unused

/-- A hunk that a bank can be read from: what the compiler puts in front is there, and behind it a
    magic or the header of a numbered bank. -/
def WellFormed (loader : Loader) (hunk : Bytes) : Prop :=
  loader.leadLength ≤ hunk.length ∧
    (spriteMagic <+: hunk.drop loader.leadLength ∨ iconMagic <+: hunk.drop loader.leadLength ∨
      loader.bankHeaderLength ≤ (hunk.drop loader.leadLength).length)

variable {loader : Loader} {data body : Bytes} {bank : Bank}

instance : Decidable (WellFormed loader data) :=
  inferInstanceAs (Decidable (_ ∧ (_ ∨ _ ∨ _)))

theorem length_spriteMagic : spriteMagic.length = 4 := by decide

theorem length_iconMagic : iconMagic.length = 4 := by decide

theorem take_eq_magic {magic : Bytes} (hmagic : magic.length = 4) :
    body.take 4 = magic ↔ magic <+: body := by
  rw [List.prefix_iff_eq_take, hmagic, eq_comm]

/-- No bank has both magics. -/
theorem not_spriteMagic_of_iconMagic (h : iconMagic <+: body) : ¬ spriteMagic <+: body := by
  intro hsprite
  have hmagics : spriteMagic = iconMagic :=
    ((take_eq_magic length_spriteMagic).2 hsprite).symm.trans ((take_eq_magic length_iconMagic).2 h)
  exact absurd hmagics (by decide)

theorem readBody_eq_ok : readBody loader data = .ok body ↔
    loader.leadLength ≤ data.length ∧ data.drop loader.leadLength = body := by
  cases loader with
  | classic => exact Bytes.readSlice_to_end
  | pro => simp [readBody, Loader.leadLength]

/-- A bank stands behind what the compiler puts in front of it. -/
theorem readBody_eq_ok_iff_lead : readBody loader data = .ok body ↔
    ∃ word, data = loader.lead word ++ body := by
  rw [readBody_eq_ok]
  cases loader with
  | classic =>
      constructor
      · rintro ⟨hle, rfl⟩
        obtain ⟨word, hword⟩ := Bytes.exists_ofWord32 (List.length_take_of_le hle)
        exact ⟨word, by rw [Loader.lead, ← hword]; exact (List.take_append_drop 4 data).symm⟩
      · rintro ⟨word, rfl⟩
        exact ⟨by simp [Loader.leadLength, Loader.lead], rfl⟩
  | pro => simp [Loader.leadLength, Loader.lead]

theorem readNumbered_classic_eq_ok : readNumbered .classic body = .ok bank ↔
    ∃ number flags contents unused, bank = .numbered number flags contents ∧
      HeaderFits .classic number flags ∧ body = bank.image .classic unused := by
  simp only [readNumbered, bind_eq_ok, Bytes.readWord16_eq_ok, Bytes.readSlice_to_end,
    Except.ok.injEq]
  constructor
  · rintro ⟨number, ⟨rest, hnumber⟩, contents, ⟨hle, hcontents⟩, rfl⟩
    obtain ⟨unused, hunused⟩ := Bytes.exists_readWord16 (by omega : 2 + 2 ≤ body.length)
    obtain ⟨rest', hunused⟩ := Bytes.readWord16_eq_ok.1 hunused
    obtain rfl : body.drop 2 = rest := Bytes.drop_behind hnumber
    obtain rfl : rest' = contents := (Bytes.drop_behind hunused).symm.trans hcontents
    refine ⟨number.toUInt32, 0, rest', unused, rfl, ⟨?_, rfl⟩, ?_⟩
    · rw [UInt16.toNat_toUInt32]
      exact number.toNat_lt
    · rw [image, UInt16.toUInt16_toUInt32, ← hunused]
      exact hnumber
  · rintro ⟨number, flags, contents, unused, rfl, ⟨hnumber, rfl⟩, rfl⟩
    have hback : number.toUInt16.toUInt32 = number := by
      apply UInt32.toNat_inj.1
      rw [UInt16.toNat_toUInt32, UInt32.toNat_toUInt16, Nat.mod_eq_of_lt hnumber]
    refine ⟨number.toUInt16, ⟨_, rfl⟩, contents, ⟨?_, rfl⟩, by rw [hback]⟩
    simp only [image, List.length_append, Bytes.length_ofWord16]
    omega

theorem readNumbered_pro_eq_ok : readNumbered .pro body = .ok bank ↔
    ∃ number flags contents unused, bank = .numbered number flags contents ∧
      HeaderFits .pro number flags ∧ body = bank.image .pro unused := by
  simp only [readNumbered, bind_eq_ok, Bytes.readWord16_eq_ok, Bytes.readWord32_eq_ok,
    Bytes.readSlice_to_end, Except.ok.injEq]
  constructor
  · rintro ⟨number, ⟨rest, hnumber⟩, flags, ⟨rest', hflags⟩, contents, ⟨hle, hcontents⟩, rfl⟩
    obtain ⟨unused, hunused⟩ := Bytes.exists_readWord16 (by omega : 6 + 2 ≤ body.length)
    obtain ⟨rest'', hunused⟩ := Bytes.readWord16_eq_ok.1 hunused
    obtain rfl : body.drop 4 = rest := Bytes.drop_behind hnumber
    obtain rfl : body.drop 6 = rest' := Bytes.drop_behind hflags
    obtain rfl : rest'' = contents := (Bytes.drop_behind hunused).symm.trans hcontents
    refine ⟨number, flags, rest'', unused, rfl, trivial, ?_⟩
    rw [image, ← hunused, ← hflags]
    exact hnumber
  · rintro ⟨number, flags, contents, unused, rfl, -, rfl⟩
    refine ⟨number, ⟨_, rfl⟩, flags, ⟨_, rfl⟩, contents, ⟨?_, rfl⟩, rfl⟩
    simp only [image, List.length_append, Bytes.length_ofWord16, Bytes.length_ofWord32]
    omega

/-- **A numbered bank is read from its header and its contents.** -/
theorem readNumbered_eq_ok : readNumbered loader body = .ok bank ↔
    ∃ number flags contents unused, bank = .numbered number flags contents ∧
      HeaderFits loader number flags ∧ body = bank.image loader unused := by
  cases loader with
  | classic => exact readNumbered_classic_eq_ok
  | pro => exact readNumbered_pro_eq_ok

theorem exists_readNumbered : (∃ bank, readNumbered loader body = .ok bank) ↔
    loader.bankHeaderLength ≤ body.length := by
  cases loader with
  | classic =>
      simp only [readNumbered, bind_eq_ok, Bytes.readSlice_to_end, Except.ok.injEq,
        Loader.bankHeaderLength]
      constructor
      · rintro ⟨bank, number, -, contents, ⟨hle, -⟩, -⟩
        exact hle
      · intro hle
        obtain ⟨number, hnumber⟩ := Bytes.exists_readWord16 (by omega : 0 + 2 ≤ body.length)
        exact ⟨_, number, hnumber, _, ⟨hle, rfl⟩, rfl⟩
  | pro =>
      simp only [readNumbered, bind_eq_ok, Bytes.readSlice_to_end, Except.ok.injEq,
        Loader.bankHeaderLength]
      constructor
      · rintro ⟨bank, number, -, flags, -, contents, ⟨hle, -⟩, -⟩
        exact hle
      · intro hle
        obtain ⟨number, hnumber⟩ := Bytes.exists_readWord32 (by omega : 0 + 4 ≤ body.length)
        obtain ⟨flags, hflags⟩ := Bytes.exists_readWord16 (by omega : 4 + 2 ≤ body.length)
        exact ⟨_, number, hnumber, flags, hflags, _, ⟨hle, rfl⟩, rfl⟩

/-- The bank in a hunk without what the compiler puts in front of it. -/
def ofImage (loader : Loader) (body : Bytes) : Except Error Bank :=
  if spriteMagic <+: body then .ok (.sprites body)
  else if iconMagic <+: body then .ok (.icons body)
  else readNumbered loader body

theorem read_eq : read loader data = (do ofImage loader (← readBody loader data)) := by
  unfold read ofImage
  simp only [take_eq_magic length_spriteMagic, take_eq_magic length_iconMagic]

theorem ofImage_eq_ok : ofImage loader body = .ok bank ↔
    ∃ unused, bank.Proper loader unused ∧ body = bank.image loader unused := by
  unfold ofImage
  split
  · rename_i hsprite
    constructor
    · rintro ⟨⟩
      exact ⟨0, hsprite, rfl⟩
    · rintro ⟨unused, hproper, rfl⟩
      cases bank with
      | sprites contents => rfl
      | icons contents => exact absurd hsprite (not_spriteMagic_of_iconMagic hproper)
      | numbered number flags contents => exact absurd hsprite hproper.2.1
  rename_i hsprite
  split
  · rename_i hicon
    constructor
    · rintro ⟨⟩
      exact ⟨0, hicon, rfl⟩
    · rintro ⟨unused, hproper, rfl⟩
      cases bank with
      | sprites contents => exact absurd hproper hsprite
      | icons contents => rfl
      | numbered number flags contents => exact absurd hicon hproper.2.2
  rename_i hicon
  rw [readNumbered_eq_ok]
  constructor
  · rintro ⟨number, flags, contents, unused, rfl, hfits, rfl⟩
    exact ⟨unused, ⟨hfits, hsprite, hicon⟩, rfl⟩
  · rintro ⟨unused, hproper, rfl⟩
    cases bank with
    | sprites contents => exact absurd hproper hsprite
    | icons contents => exact absurd hproper hicon
    | numbered number flags contents => exact ⟨_, _, _, unused, rfl, hproper.1, rfl⟩

/-- **A bank is read from its hunk, and from no other.** -/
theorem read_eq_ok : read loader data = .ok bank ↔
    ∃ gaps : Gaps, bank.Proper loader gaps.unused ∧ data = bank.hunk loader gaps := by
  simp only [read_eq, bind_eq_ok, readBody_eq_ok_iff_lead, ofImage_eq_ok]
  constructor
  · rintro ⟨body, ⟨word, rfl⟩, unused, hproper, rfl⟩
    exact ⟨⟨word, unused⟩, hproper, rfl⟩
  · rintro ⟨gaps, hproper, rfl⟩
    exact ⟨_, ⟨gaps.lead, rfl⟩, gaps.unused, hproper, rfl⟩

theorem exists_ofImage_iff : (∃ bank, ofImage loader body = .ok bank) ↔
    spriteMagic <+: body ∨ iconMagic <+: body ∨ loader.bankHeaderLength ≤ body.length := by
  unfold ofImage
  split
  · rename_i hsprite
    simp [hsprite]
  rename_i hsprite
  split
  · rename_i hicon
    simp [hicon]
  rename_i hicon
  rw [exists_readNumbered, or_iff_right hsprite, or_iff_right hicon]

/-- **Exactly the well-formed hunks are those of banks.** -/
theorem exists_read_iff : (∃ bank, read loader data = .ok bank) ↔ WellFormed loader data := by
  simp only [read_eq, bind_eq_ok, readBody_eq_ok, WellFormed, ← exists_ofImage_iff]
  constructor
  · rintro ⟨bank, body, ⟨hle, rfl⟩, hbank⟩
    exact ⟨hle, bank, hbank⟩
  · rintro ⟨hle, bank, hbank⟩
    exact ⟨bank, _, ⟨hle, rfl⟩, hbank⟩

/-- **Banks are read one from each hunk.** -/
theorem readAll_eq_ok {hunks : List Bytes} {banks : List Bank} {index : Nat} :
    readAll loader index hunks = .ok banks ↔
      List.Forall₂ (fun data bank => read loader data = .ok bank) hunks banks := by
  induction hunks generalizing banks index with
  | nil => simp [readAll, eq_comm]
  | cons data hunks ih =>
      simp only [readAll, bind_eq_ok, mapError_eq_ok, ih, List.forall₂_cons_left_iff,
        Except.ok.injEq]
      constructor
      · rintro ⟨bank, hbank, banks, hbanks, rfl⟩
        exact ⟨bank, banks, hbank, hbanks, rfl⟩
      · rintro ⟨bank, banks, hbank, hbanks, rfl⟩
        exact ⟨bank, hbank, banks, hbanks, rfl⟩

theorem exists_readAll_iff {hunks : List Bytes} {index : Nat} :
    (∃ banks, readAll loader index hunks = .ok banks) ↔ ∀ data ∈ hunks, WellFormed loader data := by
  simp only [readAll_eq_ok, ← exists_read_iff]
  exact exists_forall₂_iff

end Bank

/-! ## 2. Programs and their hunks -/

namespace Program

/-- The hunks of a program that have a place of their own, in the order of its family. A language
    library that is not there is a zero longword. -/
def fixedHunks (program : Program) : List Bytes :=
  match program.parts with
  | .classic parts =>
    [program.loaderHunk, program.mainHunk, program.relocationHunk, parts.fixedLibrary,
      program.environment, program.mouse, parts.defaultFont, parts.keyMap]
  | .pro parts =>
    [program.loaderHunk, program.mainHunk, parts.dynamicLibrary, program.relocationHunk,
      parts.amosLibrary.getD [0, 0, 0, 0], program.mouse, program.environment, parts.defaultBank,
      parts.errorMessages]

/-- What the hunks of a program have to be. -/
structure Splittable (loader : Loader) (hunks : List Bytes) : Prop where
  /-- Each place is taken. -/
  count : loader.hunkCount ≤ hunks.length
  /-- The words of the loader are there. -/
  loaderHunk : ∀ hunk ∈ hunks.head?, loader.leastLength ≤ hunk.length
  /-- All further hunks are those of banks. -/
  banks : ∀ hunk ∈ hunks.drop loader.hunkCount, Bank.WellFormed loader hunk

/-- The program has all hunks in it, each in its place. -/
structure SplitFrom (loader : Loader) (hunks : List Bytes) (program : Program) : Prop where
  /-- The parts are those of the family of the loader. -/
  family : program.loader = loader
  /-- The hunks with a place of their own are there as they are. -/
  fixed : hunks.take loader.hunkCount = program.fixedHunks
  /-- Only a zero longword stands for no language library. -/
  amosLibrary : ∀ parts, program.parts = .pro parts →
    (parts.amosLibrary = none ↔ hunks[4]? = some [0, 0, 0, 0])
  /-- Each further hunk is rebuilt from the bank that was read from it. -/
  banks : List.Forall₂ (fun hunk bank => ∃ gaps : Bank.Gaps,
      bank.Proper loader gaps.unused ∧ hunk = bank.hunk loader gaps)
    (hunks.drop loader.hunkCount) program.banks

variable {loader : Loader} {hunks : List Bytes} {program : Program}

theorem assemble_eq_ok {flags : UInt32} {loaderHunk main relocations environment mouse : Bytes}
    {parts : LoaderParts} {banks : List Bytes} :
    assemble flags loaderHunk main relocations environment mouse parts banks = .ok program ↔
      ∃ found, Bank.readAll parts.loader 0 banks = .ok found ∧ program =
        { loaderDigest := Loader.digest loaderHunk
          flags := flags
          loaderHunk := loaderHunk
          mainHunk := main
          relocationHunk := relocations
          environment := environment
          mouse := mouse
          parts := parts
          mainRelocations := (Relocations.read relocations).1
          libraryRelocations := (Relocations.read (Relocations.read relocations).2).1
          banks := found } := by
  simp only [assemble, bind_eq_ok, Except.ok.injEq, eq_comm (a := program)]

/-- A language library is left out exactly for a zero longword. -/
theorem amosLibraryOf_eq_none {hunk : Bytes} : amosLibraryOf hunk = none ↔ hunk = [0, 0, 0, 0] := by
  simp [amosLibraryOf]

theorem getD_amosLibraryOf (hunk : Bytes) : (amosLibraryOf hunk).getD [0, 0, 0, 0] = hunk := by
  unfold amosLibraryOf
  split
  · rename_i hzero
    exact hzero.symm
  · rfl

/-- **All hunks are found in their program.** -/
theorem splitFrom_of_ofHunks (h : ofHunks loader hunks = .ok program) :
    SplitFrom loader hunks program := by
  have hbanks : ∀ {loader hunks banks}, Bank.readAll loader 0 hunks = .ok banks →
      List.Forall₂ (fun hunk bank => ∃ gaps : Bank.Gaps,
        bank.Proper loader gaps.unused ∧ hunk = bank.hunk loader gaps) hunks banks :=
    fun h => (Bank.readAll_eq_ok.1 h).imp fun _ _ => Bank.read_eq_ok.1
  unfold ofHunks at h
  split at h
  · obtain ⟨flags, -, h⟩ := bind_eq_ok.1 h
    obtain ⟨banks, hread, rfl⟩ := assemble_eq_ok.1 h
    refine ⟨rfl, rfl, ?_, hbanks hread⟩
    rintro parts ⟨⟩
  · obtain ⟨flags, -, h⟩ := bind_eq_ok.1 h
    obtain ⟨pivot, -, h⟩ := bind_eq_ok.1 h
    obtain ⟨banks, hread, rfl⟩ := assemble_eq_ok.1 h
    refine ⟨rfl, ?_, ?_, hbanks hread⟩
    · simp only [fixedHunks, getD_amosLibraryOf]
      rfl
    · rintro parts ⟨⟩
      simp [amosLibraryOf_eq_none]
  · cases h

theorem splittable_of_ofHunks (h : ofHunks loader hunks = .ok program) :
    Splittable loader hunks := by
  unfold ofHunks at h
  split at h
  · obtain ⟨flags, hflags, h⟩ := bind_eq_ok.1 h
    obtain ⟨banks, hread, rfl⟩ := assemble_eq_ok.1 h
    refine ⟨Nat.le_add_left .., ?_, Bank.exists_readAll_iff.1 ⟨banks, hread⟩⟩
    rintro hunk ⟨⟩
    exact Bytes.end_le_of_readWord16 hflags
  · obtain ⟨flags, -, h⟩ := bind_eq_ok.1 h
    obtain ⟨pivot, hpivot, h⟩ := bind_eq_ok.1 h
    obtain ⟨banks, hread, rfl⟩ := assemble_eq_ok.1 h
    refine ⟨Nat.le_add_left .., ?_, Bank.exists_readAll_iff.1 ⟨banks, hread⟩⟩
    rintro hunk ⟨⟩
    exact Bytes.end_le_of_readWord32 hpivot
  · cases h

/-- **Splittable hunks make a program.** -/
theorem exists_ofHunks (h : Splittable loader hunks) :
    ∃ program, ofHunks loader hunks = .ok program := by
  obtain ⟨hcount, hloader, hbanks⟩ := h
  have hfixed := List.length_take_of_le hcount
  have hsplit := List.take_append_drop loader.hunkCount hunks
  generalize hunks.drop loader.hunkCount = banks at hbanks hsplit
  cases loader with
  | classic =>
      match hunks.take 8, hfixed, hsplit with
      | [loaderHunk, _, _, _, _, _, _, _], _, hsplit =>
          subst hsplit
          have hlength : 2 + 2 ≤ loaderHunk.length := hloader loaderHunk rfl
          obtain ⟨flags, hflags⟩ := Bytes.exists_readWord16 hlength
          obtain ⟨found, hfound⟩ := Bank.exists_readAll_iff.2 hbanks
          exact ⟨_, bind_eq_ok.2 ⟨flags, hflags, assemble_eq_ok.2 ⟨found, hfound, rfl⟩⟩⟩
  | pro =>
      match hunks.take 9, hfixed, hsplit with
      | [loaderHunk, _, _, _, _, _, _, _, _], _, hsplit =>
          subst hsplit
          have hlength : 8 + 4 ≤ loaderHunk.length := hloader loaderHunk rfl
          obtain ⟨flags, hflags⟩ := Bytes.exists_readWord32 (by omega : 2 + 4 ≤ loaderHunk.length)
          obtain ⟨pivot, hpivot⟩ := Bytes.exists_readWord32 hlength
          obtain ⟨found, hfound⟩ := Bank.exists_readAll_iff.2 hbanks
          exact ⟨_, bind_eq_ok.2 ⟨flags, hflags, bind_eq_ok.2 ⟨pivot, hpivot,
            assemble_eq_ok.2 ⟨found, hfound, rfl⟩⟩⟩⟩

/-- **Hunks make a program exactly if they are splittable, and all of them are found in it.** -/
theorem ofHunks_lossless (loader : Loader) (hunks : List Bytes) :
    ((∃ program, ofHunks loader hunks = .ok program) ↔ Splittable loader hunks) ∧
      ∀ program, ofHunks loader hunks = .ok program → SplitFrom loader hunks program :=
  ⟨⟨fun ⟨_, h⟩ => splittable_of_ofHunks h, exists_ofHunks⟩, fun _ h => splitFrom_of_ofHunks h⟩

/-- A program without a language library and with two banks, one of sprites and one that is
    numbered. -/
theorem ofHunks_lossless_two_banks :
    let hunks := [[0, 0, 0, 0, 0, 1, 0, 0, 0, 0, 0, 2], [0x4E, 0x75], [0x70, 0], [3, 0, 0],
      [0, 0, 0, 0], [5], [6], [7], [], Bytes.ascii "AmSp" ++ [0, 1],
      [0, 0, 0, 9, 0, 1, 0xFF, 0xFF, 8]]
    ∃ program, ofHunks .pro hunks = .ok program ∧ SplitFrom .pro hunks program := by
  intro hunks
  have hsplittable : Splittable .pro hunks :=
    ⟨by decide, by rintro hunk ⟨⟩; decide, by decide⟩
  obtain ⟨program, hprogram⟩ := (ofHunks_lossless .pro hunks).1.2 hsplittable
  exact ⟨program, hprogram, (ofHunks_lossless .pro hunks).2 program hprogram⟩

end Program

end AmigaBinary
