import AmigaBinary.Proofs.Program.Splitting
import AmigaBinary.Total
import Mathlib.Algebra.Ring.Nat
import Mathlib.Data.List.Chain
import Mathlib.Data.List.Infix
import Mathlib.Data.List.TakeWhile

/-!
# Relocation streams, and the hunks their lists are for

A stream is a row of lists with a zero behind each (`Relocations.lists`). Each step of a list leads
some way further, and a step that is no skip leads to a place (`Relocations.places`). Reading gives
the lists one by one (`readFrom_eq`, `getElem?_zero_lists`, `getD_one_lists`).

Places have one code exactly if they are spaced: an even number of bytes, and at least four, lies
between each and the next. A code is read back, and as long as the offset does not run over, a list
that is read has been spelled by the code of its places (`read_codes`).

A program has a list for its main hunk and one for its dynamic library. The second is read for every
program, so one of the first releases, which has no dynamic library, can get places for it
(`relocations_of_ofHunks`).
-/

namespace AmigaBinary

namespace Relocations

/-! ## 1. Places -/

/-- How far a step leads. -/
def distance (step : UInt8) : Nat :=
  if step = 1 then 508 else 2 * step.toNat

/-- The fronts of a row of steps whose last step leads to a place. -/
def placeFronts (steps : Bytes) : List Bytes :=
  steps.inits.filter fun front => front.getLast?.any (· ≠ 1)

/-- The places that steps lead to from an offset. -/
def placesFrom (offset : UInt32) (steps : Bytes) : List UInt32 :=
  (placeFronts steps).map fun front => offset + UInt32.ofNat (total distance front)

/-- The places of a row of steps. -/
def places (steps : Bytes) : List UInt32 :=
  placesFrom 0 steps

/-- The lists of a stream. The bytes behind the last zero are a list too. -/
def lists (stream : Bytes) : List (List UInt32) :=
  (stream.splitOn 0).map places

variable {offset : UInt32} {step : UInt8} {steps stream : Bytes}

/-- A step that ends no list and is no skip leads over four bytes at least. -/
theorem two_le_toNat : 2 ≤ step.toNat ↔ step ≠ 0 ∧ step ≠ 1 := by
  have hzero : step.toNat = 0 ↔ step = 0 := @UInt8.toNat_inj step 0
  have hone : step.toNat = 1 ↔ step = 1 := @UInt8.toNat_inj step 1
  rw [Ne, Ne, ← hzero, ← hone]
  omega

theorem distance_of_ne (h : step ≠ 1) : distance step = 2 * step.toNat :=
  if_neg h

theorem ofNat_distance (h : step ≠ 1) : UInt32.ofNat (distance step) = 2 * step.toUInt32 := by
  rw [distance_of_ne h, UInt32.ofNat_mul, UInt32.ofNat_uInt8ToNat]
  rfl

theorem placeFronts_cons : placeFronts (step :: steps) =
    (if step = 1 then [] else [[step]]) ++ (placeFronts steps).map (step :: ·) := by
  cases steps with
  | nil => by_cases h : step = 1 <;> simp [placeFronts, h]
  | cons next steps =>
      simp only [placeFronts, List.inits_cons]
      by_cases h : step = 1 <;> simp [h, List.filter_map, Function.comp_def]

theorem placesFrom_skip :
    placesFrom offset (1 :: steps) = placesFrom (offset + skipDistance) steps := by
  simp only [placesFrom, placeFronts_cons, if_pos, List.nil_append, List.map_map]
  refine List.map_congr_left fun front _ => ?_
  simp only [Function.comp_apply, total_cons, UInt32.ofNat_add, UInt32.add_assoc]
  rfl

theorem placesFrom_place (h : step ≠ 1) : placesFrom offset (step :: steps) =
    (offset + 2 * step.toUInt32) :: placesFrom (offset + 2 * step.toUInt32) steps := by
  simp only [placesFrom, placeFronts_cons, if_neg h, List.cons_append, List.nil_append,
    List.map_cons, List.map_map, total_cons, total_nil, Nat.add_zero, ofNat_distance h]
  congr 1
  refine List.map_congr_left fun front _ => ?_
  simp only [Function.comp_apply, total_cons, UInt32.ofNat_add, ofNat_distance h, UInt32.add_assoc]

/-- Only skips lead to no place. -/
theorem placesFrom_eq_nil : placesFrom offset steps = [] ↔ ∀ step ∈ steps, step = 1 := by
  induction steps generalizing offset with
  | nil => exact iff_of_true rfl (List.forall_mem_nil _)
  | cons step steps ih =>
      by_cases h : step = 1
      · subst h
        simp [placesFrom_skip, ih]
      · simp [placesFrom_place h, h]

/-! ## 2. Lists -/

/-- The steps of the first list of a stream. -/
def firstSteps (stream : Bytes) : Bytes :=
  stream.takeWhile (· ≠ 0)

/-- The stream behind its first list. -/
def behind (stream : Bytes) : Bytes :=
  (stream.dropWhile (· ≠ 0)).tail

theorem firstSteps_cons (h : step ≠ 0) :
    firstSteps (step :: stream) = step :: firstSteps stream := by
  simp [firstSteps, h]

theorem behind_cons (h : step ≠ 0) : behind (step :: stream) = behind stream := by
  simp [behind, h]

/-- **Reading gives the places of the first list and the stream behind it.** -/
theorem readFrom_eq :
    readFrom offset stream = (placesFrom offset (firstSteps stream), behind stream) := by
  induction stream generalizing offset with
  | nil => rfl
  | cons step stream ih =>
      by_cases hzero : step = 0
      · subst hzero
        rfl
      rw [firstSteps_cons hzero, behind_cons hzero]
      by_cases hskip : step = 1
      · subst hskip
        simp [readFrom, ih, placesFrom_skip]
      · simp [readFrom, hzero, hskip, ih, placesFrom_place hskip]

theorem read_eq : read stream = (places (firstSteps stream), behind stream) :=
  readFrom_eq

/-- A stream is its first list, and the zero and the stream behind it unless it ends there. -/
theorem stream_cases (stream : Bytes) : stream = firstSteps stream ++ 0 :: behind stream ∨
    stream = firstSteps stream ∧ behind stream = [] := by
  induction stream with
  | nil => exact Or.inr ⟨rfl, rfl⟩
  | cons step stream ih =>
      by_cases hzero : step = 0
      · subst hzero
        exact Or.inl rfl
      rw [firstSteps_cons hzero, behind_cons hzero, List.cons_append, List.cons_inj_right,
        List.cons_inj_right]
      exact ih

theorem firstSteps_ne_zero : ∀ step ∈ firstSteps stream, step ≠ 0 := by
  intro step hstep
  simpa using List.mem_takeWhile_imp hstep

theorem firstSteps_append (h : ∀ step ∈ steps, step ≠ 0) :
    firstSteps (steps ++ 0 :: stream) = steps := by
  rw [firstSteps, List.takeWhile_append_of_pos (by simpa using h)]
  simp

theorem behind_append (h : ∀ step ∈ steps, step ≠ 0) : behind (steps ++ 0 :: stream) = stream := by
  rw [behind, List.dropWhile_append_of_pos (by simpa using h)]
  simp

theorem splitOn_eq : stream.splitOn 0 =
    firstSteps stream :: if 0 ∈ stream then (behind stream).splitOn 0 else [] := by
  induction stream with
  | nil => rfl
  | cons step stream ih =>
      by_cases hzero : step = 0
      · subst hzero
        simp [List.splitOn, List.splitOnP_cons_eq_if_modifyHead, firstSteps, behind]
      rw [List.splitOn, List.splitOnP_cons_eq_if_modifyHead, if_neg (by simpa using hzero),
        ← List.splitOn, ih, firstSteps_cons hzero, behind_cons hzero]
      simp [Ne.symm hzero]

/-- The first list is the one that is read first. -/
theorem getElem?_zero_lists : (lists stream)[0]? = some (read stream).1 := by
  rw [lists, splitOn_eq, read_eq]
  rfl

/-- The second list is the one that is read then. -/
theorem getD_one_lists : (lists stream).getD 1 [] = (read (read stream).2).1 := by
  rw [lists, splitOn_eq, read_eq, read_eq]
  split
  · rw [splitOn_eq]
    rfl
  · rename_i hzero
    rcases stream_cases stream with hstream | ⟨-, hbehind⟩
    · exact absurd (hstream ▸ List.mem_append_right _ List.mem_cons_self) hzero
    · rw [hbehind]
      rfl

/-! ## 3. Codes -/

/-- An even number of bytes, and at least four, lies between each place and the next. -/
def Spaced (offset : UInt32) (places : List UInt32) : Prop :=
  (offset :: places).IsChain fun a b =>
    a.toNat + 4 ≤ b.toNat ∧ (b.toNat - a.toNat) % 2 = 0

/-- The bytes that stand for places: skips, and then one more step to the place. -/
inductive Codes : UInt32 → List UInt32 → Bytes → Prop
  | nil {offset : UInt32} : Codes offset [] []
  | cons {offset place : UInt32} {places : List UInt32} {code : Bytes} (skips : Nat) (step : UInt8)
      (hstep : 2 ≤ step.toNat) (hplace : place.toNat = offset.toNat + 508 * skips + 2 * step.toNat)
      (hcode : Codes place places code) :
      Codes offset (place :: places) (List.replicate skips 1 ++ step :: code)

theorem placesFrom_skips (skips : Nat) : placesFrom offset (List.replicate skips 1 ++ steps) =
    placesFrom (offset + UInt32.ofNat (508 * skips)) steps := by
  induction skips generalizing offset with
  | zero => simp
  | succ skips ih =>
      have hmore : UInt32.ofNat (508 * (skips + 1)) =
          skipDistance + UInt32.ofNat (508 * skips) := by
        rw [Nat.mul_succ, Nat.add_comm, UInt32.ofNat_add]
        rfl
      rw [List.replicate_succ, List.cons_append, placesFrom_skip, ih, hmore, UInt32.add_assoc]

namespace Codes

variable {places : List UInt32} {code : Bytes}

theorem ne_zero (h : Codes offset places code) : ∀ step ∈ code, step ≠ 0 := by
  induction h with
  | nil => simp
  | cons skips step hstep hplace hcode ih =>
      intro step hmem
      rcases List.mem_append.1 hmem with hskip | hmem
      · rw [List.eq_of_mem_replicate hskip]
        decide
      · rcases List.mem_cons.1 hmem with rfl | hmem
        · exact (two_le_toNat.1 hstep).1
        · exact ih step hmem

/-- A code leads to the places that it stands for. -/
theorem placesFrom_eq (h : Codes offset places code) : placesFrom offset code = places := by
  induction h with
  | nil => rfl
  | @cons offset place places code skips step hstep hplace hcode ih =>
      have hskip : step ≠ 1 := (two_le_toNat.1 hstep).2
      have hsum : offset + UInt32.ofNat (508 * skips) + 2 * step.toUInt32 = place := by
        rw [← ofNat_distance hskip, distance_of_ne hskip, UInt32.add_assoc, ← UInt32.ofNat_add]
        apply UInt32.toNat_inj.1
        rw [UInt32.toNat_add, UInt32.toNat_ofNat', Nat.add_mod_mod, ← Nat.add_assoc, ← hplace]
        exact Nat.mod_eq_of_lt place.toNat_lt
      rw [placesFrom_skips, placesFrom_place hskip, hsum, ih]

/-- **A code is read back.** -/
theorem read_eq (h : Codes 0 places code) (rest : Bytes) :
    read (code ++ 0 :: rest) = (places, rest) := by
  rw [Relocations.read_eq, firstSteps_append h.ne_zero, behind_append h.ne_zero]
  exact congrArg (·, rest) h.placesFrom_eq

theorem spaced (h : Codes offset places code) : Spaced offset places := by
  induction h with
  | nil => exact List.isChain_singleton _
  | cons skips step hstep hplace hcode ih =>
      exact List.isChain_cons_cons.2 ⟨⟨by omega, by omega⟩, ih⟩

/-- Places have no second code. -/
theorem unique {other : Bytes} (h : Codes offset places code) (hother : Codes offset places other) :
    code = other := by
  induction h generalizing other with
  | nil =>
      cases hother
      rfl
  | @cons offset place places code skips step hstep hplace hcode ih =>
      cases hother with
      | cons more next hnext hmore hrest =>
          -- the last step is less than a skip and more than nothing, so it takes the remainder
          have hlt := step.toNat_lt
          have hlt' := next.toNat_lt
          obtain rfl : skips = more := by omega
          obtain rfl : step = next := UInt8.toNat_inj.1 (by omega)
          rw [ih hrest]

theorem eq_nil (h : Codes offset [] code) : code = [] := by
  cases h
  rfl

/-- A code behind one skip more. -/
theorem skip (h : Codes offset places code) (hplaces : places ≠ []) {start : UInt32}
    (hstart : offset.toNat = start.toNat + 508) : Codes start places (1 :: code) := by
  cases h with
  | nil => exact absurd rfl hplaces
  | cons skips step hstep hplace hcode => exact .cons (skips + 1) step hstep (by omega) hcode

end Codes

/-- Spaced places have a code. -/
theorem exists_codes {places : List UInt32} (h : Spaced offset places) :
    ∃ code, Codes offset places code := by
  induction places generalizing offset with
  | nil => exact ⟨[], .nil⟩
  | cons place places ih =>
      obtain ⟨⟨hgap, heven⟩, hplaces⟩ := List.isChain_cons_cons.1 h
      obtain ⟨code, hcode⟩ := ih hplaces
      -- a skip is as long as 254 pairs of bytes, and the last step takes from 2 to 255 of them
      obtain ⟨pairs, hpairs⟩ : ∃ pairs, place.toNat = offset.toNat + 2 * (pairs + 2) :=
        ⟨(place.toNat - offset.toNat) / 2 - 2, by omega⟩
      have hstep : (UInt8.ofNat (pairs % 254 + 2)).toNat = pairs % 254 + 2 := by
        rw [UInt8.toNat_ofNat']
        omega
      exact ⟨_, .cons (pairs / 254) (UInt8.ofNat (pairs % 254 + 2)) (by omega) (by omega) hcode⟩

theorem toNat_add_ofNat {n : Nat} (h : offset.toNat + n < 2 ^ 32) :
    (offset + UInt32.ofNat n).toNat = offset.toNat + n := by
  rw [UInt32.toNat_add, UInt32.toNat_ofNat', Nat.add_mod_mod, Nat.mod_eq_of_lt h]

/-- Steps spell the code of their places, and skips behind it, if the offset does not run over. -/
theorem exists_codes_of_steps (hzero : ∀ step ∈ steps, step ≠ 0)
    (hlt : offset.toNat + total distance steps < 2 ^ 32) :
    ∃ code skips, Codes offset (placesFrom offset steps) code ∧
      steps = code ++ List.replicate skips 1 := by
  induction steps generalizing offset with
  | nil => exact ⟨[], 0, .nil, rfl⟩
  | cons step steps ih =>
      rw [total_cons] at hlt
      obtain ⟨hstep, hzero⟩ := List.forall_mem_cons.1 hzero
      have hoffset : (offset + UInt32.ofNat (distance step)).toNat = offset.toNat + distance step :=
        toNat_add_ofNat (by omega)
      obtain ⟨code, skips, hcode, hsteps⟩ : ∃ code skips,
          Codes (offset + UInt32.ofNat (distance step))
            (placesFrom (offset + UInt32.ofNat (distance step)) steps) code ∧
          steps = code ++ List.replicate skips 1 := ih hzero (by omega)
      by_cases hskip : step = 1
      · subst hskip
        have hplaces : placesFrom offset (1 :: steps) =
            placesFrom (offset + UInt32.ofNat (distance 1)) steps := placesFrom_skip
        rw [← hplaces] at hcode
        -- a skip belongs to the code of the next place, or is left over behind the last one
        by_cases hnil : placesFrom offset (1 :: steps) = []
        · rw [hnil] at hcode ⊢
          rw [hcode.eq_nil, List.nil_append] at hsteps
          exact ⟨[], skips + 1, .nil, by rw [hsteps]; rfl⟩
        · exact ⟨1 :: code, skips, hcode.skip hnil hoffset, by rw [hsteps]; rfl⟩
      · rw [ofNat_distance hskip] at hcode hoffset
        rw [distance_of_ne hskip] at hoffset
        rw [placesFrom_place hskip]
        have htwo : 2 ≤ step.toNat := two_le_toNat.2 ⟨hstep, hskip⟩
        exact ⟨step :: code, skips, .cons 0 step htwo (by omega) hcode, by rw [hsteps]; rfl⟩

/-- **Streams decode what they encode.** Exactly the spaced places have a code, and only one. Two
    codes behind each other are read back one by one, each up to its zero. Every stream is read up
    to its first zero or to its end, and if the offset does not run over, its steps spell the code
    of the places that were read, which are spaced, and skips behind it. -/
theorem read_codes :
    (∀ places, Spaced 0 places ↔ ∃! code, Codes 0 places code) ∧
      (∀ places more code next rest, Codes 0 places code → Codes 0 more next →
        read (code ++ 0 :: (next ++ 0 :: rest)) = (places, next ++ 0 :: rest) ∧
          read (next ++ 0 :: rest) = (more, rest)) ∧
      ∀ stream, (stream = firstSteps stream ++ 0 :: (read stream).2 ∨
          stream = firstSteps stream ∧ (read stream).2 = []) ∧
        (total distance (firstSteps stream) < 2 ^ 32 → Spaced 0 (read stream).1 ∧
          ∃ code skips, Codes 0 (read stream).1 code ∧
            firstSteps stream = code ++ List.replicate skips 1) := by
  refine ⟨fun places => ⟨fun h => ?_, fun ⟨code, h, _⟩ => h.spaced⟩, ?_, fun stream => ⟨?_, ?_⟩⟩
  · obtain ⟨code, hcode⟩ := exists_codes h
    exact ⟨code, hcode, fun other hother => hother.unique hcode⟩
  · intro places more code next rest hcode hnext
    exact ⟨hcode.read_eq _, hnext.read_eq _⟩
  · rw [read_eq]
    exact stream_cases stream
  · intro hlt
    rw [read_eq]
    have hbound : (0 : UInt32).toNat + total distance (firstSteps stream) < 2 ^ 32 := by
      simpa using hlt
    obtain ⟨code, skips, hcode, hsteps⟩ := exists_codes_of_steps firstSteps_ne_zero hbound
    exact ⟨hcode.spaced, code, skips, hcode, hsteps⟩

/-- Two lists, the first with a skip in it, and a stream with a skip behind its last place. -/
theorem read_codes_skips :
    Codes 0 [4, 518] [2, 1, 3] ∧ Codes 0 [8, 16] [4, 4] ∧
      read [2, 1, 3, 0, 4, 4, 0, 9] = ([4, 518], [4, 4, 0, 9]) ∧
      read [4, 4, 0, 9] = ([8, 16], [9]) ∧
      total distance (firstSteps [255, 1, 1]) < 2 ^ 32 ∧
      Spaced 0 (read [255, 1, 1]).1 := by
  have hfirst : Codes 0 [4, 518] [2, 1, 3] :=
    .cons 0 2 (by decide) (by decide) (.cons 1 3 (by decide) (by decide) .nil)
  have hsecond : Codes 0 [8, 16] [4, 4] :=
    .cons 0 4 (by decide) (by decide) (.cons 0 4 (by decide) (by decide) .nil)
  obtain ⟨hread, hnext⟩ := read_codes.2.1 _ _ _ _ [9] hfirst hsecond
  have hlt : total distance (firstSteps [255, 1, 1]) < 2 ^ 32 := by decide
  exact ⟨hfirst, hsecond, hread, hnext, hlt, ((read_codes.2.2 [255, 1, 1]).2 hlt).1⟩

end Relocations

/-! ## 4. The lists of a program -/

/-- The number of the relocation hunk. -/
def Loader.relocationPlace : Loader → Nat
  | .classic => 2
  | .pro => 3

namespace Program

/-- Each list of places is for a hunk that the program has: the first one for its main hunk, and the
    second one for its dynamic library. -/
structure OwnRelocations (program : Program) : Prop where
  main : (Relocations.lists program.relocationHunk)[0]? = some program.mainRelocations
  library : program.libraryRelocations = match program.parts.dynamicLibrary? with
    | some _ => (Relocations.lists program.relocationHunk).getD 1 []
    | none => []

variable {loader : Loader} {hunks : List Bytes} {program : Program}

/-- There is no second list exactly if nothing but skips stands between the first two zeros. -/
theorem getD_one_lists_eq_nil {stream : Bytes} : (Relocations.lists stream).getD 1 [] = [] ↔
    ∀ step ∈ (stream.splitOn 0).getD 1 [], step = 1 := by
  have hlist : (Relocations.lists stream).getD 1 [] =
      Relocations.places ((stream.splitOn 0).getD 1 []) := by
    rw [Relocations.lists, List.getD_eq_getElem?_getD, List.getD_eq_getElem?_getD,
      List.getElem?_map]
    cases (stream.splitOn 0)[1]? with
    | none => rfl
    | some steps => rfl
  rw [hlist]
  exact Relocations.placesFrom_eq_nil

theorem dynamicLibrary?_eq_none {parts : LoaderParts} :
    parts.dynamicLibrary? = none ↔ parts.loader = .classic := by
  cases parts with
  | classic parts => simp [LoaderParts.dynamicLibrary?, LoaderParts.loader]
  | pro parts => simp [LoaderParts.dynamicLibrary?, LoaderParts.loader]

/-- The relocation hunk is read twice, whatever the family of the loader is. -/
theorem lists_of_ofHunks (h : ofHunks loader hunks = .ok program) :
    program.loader = loader ∧ hunks[loader.relocationPlace]? = some program.relocationHunk ∧
      program.mainRelocations = (Relocations.read program.relocationHunk).1 ∧
      program.libraryRelocations =
        (Relocations.read (Relocations.read program.relocationHunk).2).1 := by
  unfold ofHunks at h
  split at h
  · obtain ⟨flags, -, h⟩ := bind_eq_ok.1 h
    obtain ⟨banks, -, rfl⟩ := assemble_eq_ok.1 h
    exact ⟨rfl, rfl, rfl, rfl⟩
  · obtain ⟨flags, -, h⟩ := bind_eq_ok.1 h
    obtain ⟨pivot, -, h⟩ := bind_eq_ok.1 h
    obtain ⟨banks, -, rfl⟩ := assemble_eq_ok.1 h
    exact ⟨rfl, rfl, rfl, rfl⟩
  · cases h

/-- **A program has both lists of its relocation hunk.** The second one is for a hunk of its own
    exactly if the program is a professional one or the list has no places. -/
theorem relocations_of_ofHunks (h : ofHunks loader hunks = .ok program) :
    hunks[loader.relocationPlace]? = some program.relocationHunk ∧
      (program.parts.dynamicLibrary? = none ↔ loader = .classic) ∧
      (Relocations.lists program.relocationHunk)[0]? = some program.mainRelocations ∧
      program.libraryRelocations = (Relocations.lists program.relocationHunk).getD 1 [] ∧
      (program.OwnRelocations ↔ loader = .pro ∨
        ∀ step ∈ (program.relocationHunk.splitOn 0).getD 1 [], step = 1) := by
  obtain ⟨hfamily, hhunk, hmain, hlibrary⟩ := lists_of_ofHunks h
  have hnone : program.parts.dynamicLibrary? = none ↔ loader = .classic := by
    rw [dynamicLibrary?_eq_none, ← hfamily, Program.loader]
  rw [← Relocations.getD_one_lists] at hlibrary
  have hfirst : (Relocations.lists program.relocationHunk)[0]? = some program.mainRelocations := by
    rw [Relocations.getElem?_zero_lists, hmain]
  refine ⟨hhunk, hnone, hfirst, hlibrary, ?_⟩
  rw [← getD_one_lists_eq_nil, ← hlibrary]
  cases loader with
  | classic =>
      have hown : program.OwnRelocations ↔ program.libraryRelocations = [] := by
        constructor
        · intro hown
          simpa only [hnone.2 rfl] using hown.library
        · intro hnil
          exact ⟨hfirst, by rw [hnone.2 rfl, hnil]⟩
      simp [hown]
  | pro =>
      cases hlinked : program.parts.dynamicLibrary? with
      | none => exact absurd (hnone.1 hlinked) (by decide)
      | some code => exact iff_of_true ⟨hfirst, by rw [hlinked, hlibrary]⟩ (Or.inl rfl)

/-- A professional program with a list for each of its two hunks. -/
theorem relocations_of_ofHunks_pro :
    let hunks := [[0, 0, 0, 0, 0, 1, 0, 0, 0, 0, 0, 2], [0x4E, 0x71, 0x4E, 0x75], [0x4E, 0x75],
      [3, 1, 0, 2, 0], [0, 0, 0, 0], [5], [6], [7], []]
    ∃ program, ofHunks .pro hunks = .ok program ∧ program.mainRelocations = [6] ∧
      program.libraryRelocations = [4] ∧ program.OwnRelocations := by
  intro hunks
  have hprogram : ∃ program, ofHunks .pro hunks = .ok program := ⟨_, rfl⟩
  obtain ⟨program, hprogram⟩ := hprogram
  obtain ⟨hhunk, -, hmain, hlibrary, hown⟩ := relocations_of_ofHunks hprogram
  have hstream : program.relocationHunk = [3, 1, 0, 2, 0] := (Option.some.inj hhunk).symm
  rw [hstream] at hmain hlibrary
  exact ⟨program, hprogram, (Option.some.inj hmain).symm, hlibrary, hown.2 (Or.inl rfl)⟩

/-- The hunks of a program of the first releases, with a second list behind the first one. -/
def strayHunks : List Bytes :=
  [[0, 0, 0, 0x42], [0x4E, 0x71, 0x4E, 0x75], [2, 0, 3, 0], [0x4E, 0x75], [0], [0], [0], [0]]

/-- Places are read for a library that the program does not have. -/
theorem stray_not_ownRelocations : ∃ program, ofHunks .classic strayHunks = .ok program ∧
    program.parts.dynamicLibrary? = none ∧ program.mainRelocations = [4] ∧
    program.libraryRelocations = [6] ∧ ¬ program.OwnRelocations := by
  refine ⟨_, rfl, rfl, rfl, rfl, ?_⟩
  intro hown
  exact absurd hown.library (by decide)

end Program

end AmigaBinary
