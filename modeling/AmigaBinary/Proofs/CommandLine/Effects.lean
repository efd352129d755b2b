import AmigaBinary.CommandLine.Run
import AmigaBinary.Proofs.Success
import Mathlib.Data.List.Basic

/-!
# What a command does to files

A command depends on the files that it reads and on no others (`run_congr`), so they can be read in
front of it. In a tree of files it leaves one file at most, and all others as they are; where it
fails, it leaves the whole tree as it is (`runIn_effects`).
-/

namespace AmigaBinary.CommandLine

variable {standard : Option String} {arguments : List String} {invocation : Invocation}
  {directory other : Directory} {tree next : FileTree} {path : String} {contents : Bytes}

/-! ## 1. What a command reads -/

theorem readFile_congr (h : directory path = other path) :
    readFile directory path = readFile other path :=
  congrArg (Except.mapError _) h

/-- **An invocation reads no other files than its inputs.** -/
theorem Invocation.run_congr (h : ∀ file ∈ invocation.inputs, directory file = other file) :
    invocation.run directory = invocation.run other := by
  unfold Invocation.inputs at h
  unfold Invocation.run
  cases hcommand : invocation.command with
  | report kind files =>
      rw [hcommand] at h
      have hreports : ∀ file ∈ files,
          runReport invocation kind directory file = runReport invocation kind other file := by
        intro file hm
        unfold runReport reportText
        rw [readFile_congr (h file hm)]
      dsimp only
      rw [List.map_congr_left hreports]
  | disassemble file range =>
      rw [hcommand] at h
      dsimp only
      unfold listingText
      rw [readFile_congr (h file List.mem_cons_self)]
  | relink file output =>
      rw [hcommand] at h
      dsimp only
      unfold runRelink relinkFile
      rw [readFile_congr (h file List.mem_cons_self)]
  | scan _ _ => rfl

theorem run_congr (h : ∀ file ∈ inputs standard arguments, directory file = other file) :
    run standard arguments directory = run standard arguments other := by
  unfold inputs at h
  unfold run
  cases hread : Invocation.read standard arguments with
  | ok invocation =>
      rw [hread] at h
      exact Invocation.run_congr h
  | error fault => rfl

/-- Reading files leaves the tree as it is. -/
theorem readAll_storage (files : List String) (tree : FileTree) :
    (FileTree.storage.readAll files).run tree
      = (files.map fun file => (file, tree.read file), tree) := by
  induction files with
  | nil => rfl
  | cons file files ih =>
      have hrest : (FileTree.storage.readAll (file :: files)).run tree
          = ((file, tree.read file) :: ((FileTree.storage.readAll files).run tree).1,
            ((FileTree.storage.readAll files).run tree).2) := by
        unfold Storage.readAll
        rw [List.mapM_cons]
        rfl
      rw [hrest, ih]
      rfl

/-- **Files that are read in front of a command are as good as the tree.** -/
theorem run_readAll : (run standard arguments fun file =>
      (((inputs standard arguments).map fun file => (file, tree.read file)).lookup file).getD
        (.error .missing)) = run standard arguments tree.read := by
  refine run_congr fun file hm => ?_
  rw [List.lookup_graph tree.read hm]
  rfl

/-! ## 2. What a command writes -/

theorem written_append {a b : Outcome} (ha : a.written = none) (hb : b.written = none) :
    (a.append b).written = none := by
  unfold Outcome.append
  rw [ha, hb]
  rfl

theorem written_foldl {first : Outcome} {outcomes : List Outcome} (h : first.written = none)
    (hall : ∀ outcome ∈ outcomes, outcome.written = none) :
    (outcomes.foldl Outcome.append first).written = none := by
  induction outcomes generalizing first with
  | nil => exact h
  | cons outcome outcomes ih =>
      obtain ⟨houtcome, hrest⟩ := List.forall_mem_cons.1 hall
      exact ih (written_append h houtcome) hrest

theorem written_runReport (kind : ReportKind) (file : String) :
    (runReport invocation kind directory file).written = none := by
  unfold runReport
  split <;> rfl

/-- **Only a command that succeeds leaves a file.** -/
theorem Invocation.exitCode_of_written
    (h : (invocation.run directory).written = some (path, contents)) :
    (invocation.run directory).exitCode = 0 := by
  unfold Invocation.run at h ⊢
  cases hcommand : invocation.command with
  | report kind files =>
      rw [hcommand] at h
      dsimp only at h
      rw [written_foldl rfl] at h
      · cases h
      · intro outcome hm
        obtain ⟨file, -, rfl⟩ := List.mem_map.1 hm
        exact written_runReport kind file
  | disassemble file range =>
      rw [hcommand] at h
      dsimp only at h
      split at h <;> cases h
  | relink file output =>
      dsimp only
      rw [hcommand] at h
      dsimp only at h
      unfold runRelink at h ⊢
      split at h
      · cases h
      · rfl
  | scan _ _ =>
      rw [hcommand] at h
      cases h

theorem exitCode_of_written
    (h : (run standard arguments directory).written = some (path, contents)) :
    (run standard arguments directory).exitCode = 0 := by
  unfold run at h ⊢
  split at h
  · exact Invocation.exitCode_of_written h
  · cases h

/-! ## 3. Files of a tree -/

theorem lookup_filter_ne {files : List (Place × Bytes)} {place asked : Place} (h : asked ≠ place) :
    (files.filter (·.1 ≠ place)).lookup asked = files.lookup asked := by
  induction files with
  | nil => rfl
  | cons file files ih =>
      by_cases hfile : file.1 = place
      · have hother : (asked == file.1) = false := by
          rw [hfile]
          exact beq_eq_false_iff_ne.2 h
        rw [List.filter_cons_of_neg (by simpa using hfile), ih, List.lookup_cons, hother]
      · rw [List.filter_cons_of_pos (by simpa using hfile), List.lookup_cons, List.lookup_cons, ih]

/-- **Writing a file changes what is at its place**, and nothing else. -/
theorem FileTree.contents_of_write (h : tree.write path contents = .ok next) (place : Place) :
    next.contents? place = tree.contents? place ∨
      tree.resolve path = .ok place ∧ next.contents? place = some contents := by
  unfold FileTree.write at h
  obtain ⟨target, htarget, h⟩ := bind_eq_ok.1 h
  split at h
  · cases h
  · split at h
    · obtain rfl := Except.ok.inj h
      exact .inl rfl
    · obtain rfl := Except.ok.inj h
      by_cases hplace : place = target
      · subst hplace
        refine .inr ⟨htarget, ?_⟩
        unfold FileTree.contents?
        rw [List.lookup_cons_self]
      · refine .inl ?_
        unfold FileTree.contents?
        rw [List.lookup_cons, beq_eq_false_iff_ne.2 hplace]
        exact lookup_filter_ne hplace

/-! ## 4. What a command leaves -/

theorem write_storage (path : String) (contents : Bytes) (tree : FileTree) :
    (FileTree.storage.write path contents).run tree =
      match tree.write path contents with
      | .ok next => (.ok (), next)
      | .error fault => (.error fault, tree) := by
  unfold FileTree.storage
  dsimp only
  rw [StateT.run_bind, StateT.run_get, pure_bind]
  cases tree.write path contents <;> rfl

/-- A command in a tree is the command on what is in the tree, and its file is written then. -/
theorem runIn_eq : runIn standard arguments tree =
    match (run standard arguments tree.read).written with
    | none => (run standard arguments tree.read, tree)
    | some (path, contents) =>
      match tree.write path contents with
      | .ok next => (run standard arguments tree.read, next)
      | .error fault => (.failed (.writing path fault), tree) := by
  unfold runIn perform
  rw [StateT.run_bind, readAll_storage]
  show StateT.run _ tree = _
  dsimp only
  rw [run_readAll]
  cases hwritten : (run standard arguments tree.read).written with
  | none => rfl
  | some file =>
      obtain ⟨path, contents⟩ := file
      dsimp only
      rw [StateT.run_bind, write_storage]
      cases tree.write path contents <;> rfl

/-- **What a command does to a tree of files.** Where it fails, the tree is as it was. Else what is
    at a place is as it was, or the command leaves a file there. -/
theorem runIn_effects :
    ((runIn standard arguments tree).1.exitCode ≠ 0 → (runIn standard arguments tree).2 = tree) ∧
    ∀ place, (runIn standard arguments tree).2.contents? place = tree.contents? place ∨
      ∃ path contents, (run standard arguments tree.read).written = some (path, contents) ∧
        tree.resolve path = .ok place ∧
        (runIn standard arguments tree).2.contents? place = some contents := by
  rw [runIn_eq]
  cases hwritten : (run standard arguments tree.read).written with
  | none => exact ⟨fun _ => rfl, fun _ => .inl rfl⟩
  | some file =>
      obtain ⟨path, contents⟩ := file
      dsimp only
      cases hnext : tree.write path contents with
      | error fault => exact ⟨fun _ => rfl, fun _ => .inl rfl⟩
      | ok next =>
          refine ⟨fun hfailed => absurd (exitCode_of_written hwritten) hfailed, fun place => ?_⟩
          rcases FileTree.contents_of_write hnext place with hsame | ⟨hplace, hnew⟩
          · exact .inl hsame
          · exact .inr ⟨path, contents, rfl, hplace, hnew⟩

end AmigaBinary.CommandLine
