import AmigaBinary.Inspection
import AmigaBinary.Proofs.Packer.Unpacking

/-!
# Two ways to inspect a library

The report on a library (`Report.inspectLibrary`) and the report on a file that turns out to be one
(`Report.inspect`) say the same, but for the packer: the first never names one
(`Report.inspect_of_inspectLibrary`). So they differ just on the packed libraries that are unpacked.
-/

namespace AmigaBinary

variable {options : InspectOptions} {data code : Bytes} {file stored : HunkFile}

/-! ## 1. Files -/

namespace HunkFile

/-- What is read as a hunk file has its magic. -/
theorem detect_of_parse (h : parse data = .ok file) : FileFormat.detect data = .hunk := by
  obtain ⟨l, rfl, -⟩ := parse_eq_ok.1 h
  have hmagic : l.bytes.take 4 = FileFormat.hunkMagic := by
    unfold Layout.bytes Layout.header
    simp only [List.append_assoc]
    rfl
  unfold FileFormat.detect
  dsimp only
  rw [if_pos hmagic]

/-- A file is read as it is stored, and then unpacked if the options say so. -/
theorem read_eq_ok : HunkFile.read options data = .ok file ↔ ∃ stored, parse data = .ok stored ∧
    (if options.unpack then stored.unpack else .ok stored) = .ok file := by
  unfold HunkFile.read parseUnpacked
  split
  · exact bind_eq_ok
  · constructor
    · exact fun h => ⟨file, h, rfl⟩
    · rintro ⟨stored, h, hstored⟩
      rw [← hstored]
      exact h

end HunkFile

/-! ## 2. Packers -/

namespace Packer

/-- The packer whose unpacking code is removed from a file. -/
def removed? (options : InspectOptions) (stored : HunkFile) : Option Packer :=
  if options.unpack then detect? stored else none

/-- No unpacking code is removed from a file that is not recognised, or is not to be unpacked. -/
theorem removed?_eq_none :
    removed? options stored = none ↔ options.unpack = false ∨ recognize? stored = none := by
  unfold removed? detect?
  cases options.unpack <;> simp

end Packer

/-! ## 3. Reports -/

namespace Report

variable {report : Report} {library : Library} {analysis : LibraryReport}

/-- The analysis of a library does not depend on the kind of the file, and not on the packer. -/
theorem withLibraryAndNote_ofFile (md5 : String) (size : Nat) (file : HunkFile)
    (analysis : LibraryReport) (packer : Option Packer) :
    Report.withLibraryAndNote { ofFile .hunk md5 size file with packer := packer } analysis
      = { (ofFile .library md5 size file).withLibraryAndNote analysis with packer := packer } := by
  unfold withLibraryAndNote
  split <;> rfl

theorem packer_withLibraryAndNote (report : Report) (analysis : LibraryReport) :
    (report.withLibraryAndNote analysis).packer = report.packer := by
  unfold withLibraryAndNote
  split <;> rfl

/-- A library is reported on if its file is read, has code with the header of a library, and the
    library is analysed. -/
theorem inspectLibrary_eq_ok : inspectLibrary options data = .ok report ↔
    ∃ file code library analysis, HunkFile.read options data = .ok file ∧
      file.firstCode? = some code ∧ Library.parse code = .ok library ∧
      LibraryReport.ofLibrary options (Md5.hexDigest data) library = .ok analysis ∧
      (ofFile .library (Md5.hexDigest data) data.length file).withLibraryAndNote analysis
        = report := by
  constructor
  · intro h
    obtain ⟨file, hfile, hread⟩ := bind_eq_ok.1 h
    obtain ⟨library, hlibrary, hanalysed⟩ := bind_eq_ok.1 hread
    obtain ⟨analysis, hanalysis, hreport⟩ := bind_eq_ok.1 hanalysed
    unfold Library.ofFile at hlibrary
    split at hlibrary
    · rename_i code hcode
      cases hparse : Library.parse code with
      | ok parsed =>
          rw [hparse] at hlibrary
          obtain rfl := Except.ok.inj hlibrary
          exact ⟨file, code, _, analysis, hfile, hcode, hparse, hanalysis, Except.ok.inj hreport⟩
      | error e =>
          rw [hparse] at hlibrary
          cases hlibrary
    · cases hlibrary
  · rintro ⟨file, code, library, analysis, hfile, hcode, hparse, hanalysis, rfl⟩
    refine bind_eq_ok.2 ⟨file, hfile, bind_eq_ok.2 ⟨library, ?_, bind_eq_ok.2 ⟨analysis, hanalysis,
      rfl⟩⟩⟩
    unfold Library.ofFile
    rw [hcode]
    dsimp only
    rw [hparse]
    rfl

/-- A file whose code is no loader and has the header of a library is analysed as one. -/
theorem analyse_library (hcode : file.firstCode? = some code)
    (hloader : Loader.isKnown code = false)
    (hparse : Library.parse code = .ok library)
    (hanalysis : LibraryReport.ofLibrary options report.md5 library = .ok analysis) :
    analyse options data file report = .ok (report.withLibraryAndNote analysis) := by
  unfold analyse
  rw [hcode]
  dsimp only
  rw [hloader, Bool.and_false, if_neg Bool.false_ne_true, hparse]
  exact bind_eq_ok.2 ⟨analysis, hanalysis, rfl⟩

/-- A file is reported on as it is read, with the packer whose unpacking code is removed. -/
theorem inspect_of_read (hparse : HunkFile.parse data = .ok stored)
    (hread : (if options.unpack then stored.unpack else .ok stored) = .ok file) :
    inspect options data = analyse options data file
      { ofFile .hunk (Md5.hexDigest data) data.length file with
        packer := Packer.removed? options stored } := by
  unfold inspect
  rw [if_pos (HunkFile.detect_of_parse hparse), hparse]
  dsimp only [bind, Except.bind]
  split at hread <;> rename_i hunpack
  · rw [if_pos hunpack, hread]
    rfl
  · rw [if_neg hunpack]
    obtain rfl := Except.ok.inj hread
    rfl

/-- What is reported on as a library is reported on in the same way if it is not known to be one,
    with the packer added. -/
theorem inspect_packed (hlibrary : inspectLibrary options data = .ok report)
    (hfile : HunkFile.read options data = .ok file)
    (hloader : ∀ code, file.firstCode? = some code → Loader.isKnown code = false) :
    ∃ stored, HunkFile.parse data = .ok stored ∧
      inspect options data = .ok { report with packer := Packer.removed? options stored } := by
  obtain ⟨_, code, library, analysis, hread, hcode, hparse, hanalysis, rfl⟩ :=
    inspectLibrary_eq_ok.1 hlibrary
  obtain rfl := Except.ok.inj (hread.symm.trans hfile)
  obtain ⟨stored, hstored, hunpack⟩ := HunkFile.read_eq_ok.1 hfile
  refine ⟨stored, hstored, ?_⟩
  rw [inspect_of_read hstored hunpack, ← withLibraryAndNote_ofFile]
  exact analyse_library hcode (hloader code hcode) hparse hanalysis

theorem packer_of_inspectLibrary (h : inspectLibrary options data = .ok report) :
    report.packer = none := by
  obtain ⟨_, _, _, _, -, -, -, -, rfl⟩ := inspectLibrary_eq_ok.1 h
  exact packer_withLibraryAndNote _ _

/-! ## 4. A packed library -/

/-- The built-in registry has no fault. -/
theorem exists_known : ∃ registry, Registry.known = .ok registry :=
  exists_of_isOk (by decide +kernel)

/-- The analysis of a library fails on its routines at most. -/
theorem exists_ofLibrary {routines : List (UInt16 × Bytes)} (h : library.routines = .ok routines)
    (options : InspectOptions) (md5 : String) :
    ∃ analysis, LibraryReport.ofLibrary options md5 library = .ok analysis := by
  obtain ⟨registry, hregistry⟩ := exists_known
  exact ⟨_, bind_eq_ok.2 ⟨registry, hregistry, bind_eq_ok.2 ⟨routines, h, rfl⟩⟩⟩

/-- The code hunk of a library without keywords, whose only routine returns at once. -/
def returningCode : Bytes :=
  [0, 0, 0, 2, 0, 0, 0, 2, 0, 0, 0, 2, 0, 0, 0, 0, 0, 0, 0, 1, 0, 0, 0x4E, 0x75]

/-- The file of the library. -/
def returningFile : HunkFile :=
  ⟨.complete, [⟨24, .any⟩], [.code returningCode, .finish]⟩

/-- Its bytes, packed as one run of literals. -/
def returningPacked : Packer.Payload :=
  ⟨[], [], ⟨[], returningFile.write.reverse⟩⟩

/-- The packed executable of it. -/
def returningExecutable : HunkFile :=
  Packer.executable [⟨548, .any⟩, ⟨72, .any⟩] HunkFile.bareStub
    (returningPacked.bytes ⟨9, 10, 11, 12⟩)

theorem standsFor_returningPacked :
    returningPacked.StandsFor ⟨9, 10, 11, 12⟩ returningFile.write := by
  have hv : returningPacked.stream.Valid ⟨9, 10, 11, 12⟩ := ⟨by decide, by decide⟩
  exact ⟨Packer.Payload.fits_of_front hv (by decide) (by decide), by decide, hv, by decide⟩

theorem parse_returningExecutable :
    HunkFile.parse returningExecutable.write = .ok returningExecutable :=
  HunkFile.parse_executable rfl (Packer.whole_of_carries HunkFile.carries_bareStub)
    standsFor_returningPacked.whole

theorem recognize?_returningExecutable :
    Packer.recognize? returningExecutable = some (.powerPacker .powerPackerShort HunkFile.bareStub
      (returningPacked.bytes ⟨9, 10, 11, 12⟩)) :=
  Packer.recognize?_executable (by rw [HunkFile.length_bareStub]; rfl)
    (HunkFile.declares_bareStub _ _)

theorem unpack_returningExecutable : returningExecutable.unpack = .ok returningFile :=
  HunkFile.unpack_executable
    (HunkFile.WellFormed.read ⟨by decide, by decide, by decide, by decide⟩) (by decide)
    standsFor_returningPacked HunkFile.carries_bareStub (HunkFile.declares_bareStub _ _)

theorem read_returningExecutable :
    HunkFile.read {} returningExecutable.write = .ok returningFile := by
  refine HunkFile.read_eq_ok.2 ⟨returningExecutable, parse_returningExecutable, ?_⟩
  rw [if_pos rfl]
  exact unpack_returningExecutable

theorem isKnown_returningCode {code : Bytes} (h : returningFile.firstCode? = some code) :
    Loader.isKnown code = false := by
  obtain rfl : returningCode = code := Option.some.inj h
  decide +kernel

theorem exists_inspectLibrary_returning :
    ∃ report, inspectLibrary {} returningExecutable.write = .ok report := by
  have hroutines : (Library.mk false false [[0x4E, 0x75]] [] []).routines
      = .ok [(0, [0x4E, 0x75])] := rfl
  obtain ⟨analysis, hanalysis⟩ := exists_ofLibrary hroutines {}
    (Md5.hexDigest returningExecutable.write)
  exact ⟨_, inspectLibrary_eq_ok.2 ⟨returningFile, returningCode, _, analysis,
    read_returningExecutable, rfl, by decide +kernel, hanalysis, rfl⟩⟩

/-! ## 5. The two reports -/

/-- **The two reports on a library agree but for the packer**, which the report on a library leaves
    out. They are the same exactly if the file is not to be unpacked or is not recognised as a
    packed one. -/
theorem inspect_of_inspectLibrary (hlibrary : inspectLibrary options data = .ok report)
    (hfile : HunkFile.read options data = .ok file)
    (hloader : ∀ code, file.firstCode? = some code → Loader.isKnown code = false) :
    report.packer = none ∧ ∃ stored, HunkFile.parse data = .ok stored ∧
      inspect options data = .ok { report with packer := Packer.removed? options stored } ∧
      (inspect options data = .ok report ↔
        options.unpack = false ∨ Packer.recognize? stored = none) := by
  obtain ⟨stored, hstored, hinspect⟩ := inspect_packed hlibrary hfile hloader
  have hnone := packer_of_inspectLibrary hlibrary
  refine ⟨hnone, stored, hstored, hinspect, ?_⟩
  rw [hinspect, Except.ok.injEq, ← Packer.removed?_eq_none]
  constructor
  · intro h
    rw [← hnone, ← h]
  · intro h
    rw [h, ← hnone]

/-- The packed library is reported on in both ways. -/
theorem inspect_of_inspectLibrary_returning :
    ∃ report, inspectLibrary {} returningExecutable.write = .ok report ∧
      HunkFile.read {} returningExecutable.write = .ok returningFile ∧
      (∀ code, returningFile.firstCode? = some code → Loader.isKnown code = false) ∧
      report.packer = none ∧ ∃ stored, HunkFile.parse returningExecutable.write = .ok stored ∧
        inspect {} returningExecutable.write
          = .ok { report with packer := Packer.removed? {} stored } ∧
        (inspect {} returningExecutable.write = .ok report ↔
          ({} : InspectOptions).unpack = false ∨ Packer.recognize? stored = none) := by
  obtain ⟨report, hlibrary⟩ := exists_inspectLibrary_returning
  exact ⟨report, hlibrary, read_returningExecutable, fun _ => isKnown_returningCode,
    inspect_of_inspectLibrary hlibrary read_returningExecutable fun _ => isKnown_returningCode⟩

/-- **The two reports on it differ**: one of them leaves out that it was packed. -/
theorem inspect_ne_inspectLibrary :
    ∃ report, inspectLibrary {} returningExecutable.write = .ok report ∧
      HunkFile.read {} returningExecutable.write = .ok returningFile ∧
      (∀ code, returningFile.firstCode? = some code → Loader.isKnown code = false) ∧
      report.packer = none ∧
      inspect {} returningExecutable.write
        = .ok { report with packer := some .powerPackerShort } ∧
      inspect {} returningExecutable.write ≠ .ok report := by
  obtain ⟨report, hlibrary⟩ := exists_inspectLibrary_returning
  obtain ⟨stored, hstored, hinspect⟩ := inspect_packed hlibrary read_returningExecutable
    fun _ => isKnown_returningCode
  have hnone := packer_of_inspectLibrary hlibrary
  obtain rfl := Except.ok.inj (parse_returningExecutable.symm.trans hstored)
  have hpacker : Packer.removed? {} returningExecutable = some .powerPackerShort := by
    unfold Packer.removed? Packer.detect?
    rw [if_pos rfl, recognize?_returningExecutable]
    rfl
  rw [hpacker] at hinspect
  refine ⟨report, hlibrary, read_returningExecutable, fun _ => isKnown_returningCode, hnone,
    hinspect, fun hsame => ?_⟩
  have hreport := Except.ok.inj (hinspect.symm.trans hsame)
  rw [← hreport] at hnone
  cases hnone

end Report

end AmigaBinary
