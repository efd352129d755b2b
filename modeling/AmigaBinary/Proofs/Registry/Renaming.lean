import AmigaBinary.Proofs.Registry.Flattening

/-!
# Renaming the routines of a base

The rows of a definition give routines of its base new names, one row after the other. A name that
a row gives to one routine may be the old name in a later row, which then renames that routine
again. The rows rename all routines at once exactly if this never happens, and they can be put in
such an order exactly if no rows pass their names round in a ring (`ofDefinitions_renames`).
-/

namespace AmigaBinary

namespace LibraryDefinition

variable {table kept : NameTable UInt16} {rows : List (String × String)}
variable {name old new : String} {number : UInt16}

/-! ## 1. A single row -/

theorem rename_of_absent (h : old ∉ table.names) : rename table old new = table := by
  rw [rename, NameTable.get?_eq_none_iff.2 h]

theorem rename_of_present (h : old ∈ table.names) (new : String) :
    ∃ number, table.get? old = some number ∧
      rename table old new = (table.erase old).insert new number := by
  obtain ⟨number, hnumber⟩ := NameTable.mem_names_iff.1 h
  exact ⟨number, hnumber, by rw [rename, hnumber]⟩

theorem get?_rename_new (h : table.get? old = some number) :
    (rename table old new).get? new = some number := by
  simp [get?_rename, afterRenaming, h]

theorem get?_rename_of_ne (hold : name ≠ old) (hnew : name ≠ new) :
    (rename table old new).get? name = table.get? name := by
  simp [get?_rename, afterRenaming, hold, hnew]

/-- A row takes the old name to the new one and leaves the others. -/
theorem mem_names_rename : name ∈ (rename table old new).names ↔
    ∃ start ∈ table.names, (if start = old then new else start) = name := by
  by_cases h : old ∈ table.names
  · obtain ⟨number, -, hrename⟩ := rename_of_present h new
    rw [hrename, NameTable.mem_names_insert, NameTable.mem_names_erase]
    constructor
    · intro hname
      rcases hname with rfl | ⟨hne, hname⟩
      · exact ⟨old, h, if_pos rfl⟩
      · exact ⟨name, hname, if_neg hne⟩
    · intro ⟨start, hstart, heq⟩
      split at heq
      · exact Or.inl heq.symm
      · rename_i hne
        exact Or.inr (heq ▸ ⟨hne, hstart⟩)
  · rw [rename_of_absent h]
    constructor
    · intro hname
      have hne : name ≠ old := ne_of_mem_of_not_mem hname h
      exact ⟨name, hname, if_neg hne⟩
    · intro ⟨start, hstart, heq⟩
      rw [if_neg (ne_of_mem_of_not_mem hstart h)] at heq
      exact heq ▸ hstart

/-- A row that puts no other routine's name in its place loses none. -/
theorem size_rename (h : old ∈ table.names → new = old ∨ new ∉ table.names) :
    (rename table old new).size = table.size := by
  by_cases hold : old ∈ table.names
  · obtain ⟨number, -, hrename⟩ := rename_of_present hold new
    have hnew : new ∉ (table.erase old).names := by
      rw [NameTable.mem_names_erase]
      intro ⟨hne, hmem⟩
      exact (h hold).elim hne fun hfree => hfree hmem
    rw [hrename, NameTable.size_insert hnew, NameTable.size_erase hold]
  · rw [rename_of_absent hold]

/-! ## 2. Row after row -/

/-- A table after the renames of all rows, the first row first. -/
def renameAll (rows : List (String × String)) (table : NameTable UInt16) : NameTable UInt16 :=
  rows.foldl (fun table row => rename table row.1 row.2) table

/-- The name that the rows lead a name to. -/
def followed : List (String × String) → String → String
  | [], name => name
  | row :: rows, name => followed rows (if name = row.1 then row.2 else name)

/-- The routines of a base that a definition does not remove. -/
def remaining (definition : LibraryDefinition) (base : NameTable UInt16) : NameTable UInt16 :=
  definition.removed.foldl NameTable.erase base

theorem updateRoutines_eq (definition : LibraryDefinition) (base : NameTable UInt16) :
    definition.updateRoutines base =
      (renameAll definition.renamed (definition.remaining base)).insertAll definition.routines :=
  rfl

@[simp] theorem renameAll_nil : renameAll [] table = table := rfl

@[simp] theorem renameAll_cons (row : String × String) :
    renameAll (row :: rows) table = renameAll rows (rename table row.1 row.2) := rfl

theorem renameAll_append (more : List (String × String)) :
    renameAll (rows ++ more) table = renameAll more (renameAll rows table) :=
  List.foldl_append

/-- The names after all rows are the names before, each followed through the rows. -/
theorem mem_names_renameAll :
    name ∈ (renameAll rows table).names ↔ ∃ start ∈ table.names, followed rows start = name := by
  induction rows generalizing table with
  | nil => simp [followed]
  | cons row rows ih => simp [ih, mem_names_rename, followed]

theorem get?_renameAll_of_unmentioned (h : ∀ row ∈ rows, row.1 ≠ name ∧ row.2 ≠ name) :
    (renameAll rows table).get? name = table.get? name := by
  induction rows generalizing table with
  | nil => rfl
  | cons row rows ih =>
      obtain ⟨⟨hold, hnew⟩, hrows⟩ := List.forall_mem_cons.1 h
      rw [renameAll_cons, ih hrows, get?_rename_of_ne hold.symm hnew.symm]

/-- Rows that never give a name lead to it from no other name. -/
theorem followed_ne (hname : name ≠ new) (hrows : ∀ row ∈ rows, row.2 ≠ new) :
    followed rows name ≠ new := by
  induction rows generalizing name with
  | nil => exact hname
  | cons row rows ih =>
      obtain ⟨hrow, hrows⟩ := List.forall_mem_cons.1 hrows
      rw [followed]
      refine ih ?_ hrows
      split
      · exact hrow
      · exact hname

/-- Rows that rename a name and never give it lead nowhere to it. -/
theorem followed_ne_old (hmem : old ∈ rows.map (·.1)) (hrows : ∀ row ∈ rows, row.2 ≠ old) :
    followed rows name ≠ old := by
  induction rows generalizing name with
  | nil => cases hmem
  | cons row rows ih =>
      obtain ⟨hrow, hrest⟩ := List.forall_mem_cons.1 hrows
      rw [followed]
      rcases List.mem_cons.1 hmem with hfirst | hlater
      · refine followed_ne ?_ hrest
        split
        · exact hrow
        · rename_i hne
          rw [hfirst]
          exact hne
      · exact ih hlater hrest

/-! ## 3. All rows at once -/

/-- Rows that rename routines of a base: no routine gets two names and no name goes to two
    routines, and a new name is free or becomes free. -/
structure Renaming (rows : List (String × String)) (kept : NameTable UInt16) : Prop where
  olds : (rows.map (·.1)).Nodup
  news : (rows.map (·.2)).Nodup
  free : ∀ row ∈ rows, row.2 ∉ kept.names ∨ row.2 ∈ rows.map (·.1)

instance : Decidable (Renaming rows kept) :=
  decidable_of_iff (_ ∧ _ ∧ _)
    ⟨fun ⟨holds, hnews, hfree⟩ => ⟨holds, hnews, hfree⟩, fun h => ⟨h.olds, h.news, h.free⟩⟩

/-- Each routine has the new name of its row, the others have their old names, and none is lost. -/
structure RenamesAtOnce (rows : List (String × String)) (kept renamed : NameTable UInt16) :
    Prop where
  moved : ∀ row ∈ rows, ∀ number, kept.get? row.1 = some number →
    renamed.get? row.2 = some number
  others : ∀ name, (∀ row ∈ rows, row.1 ≠ name ∧ row.2 ≠ name) → ∀ number,
    kept.get? name = some number → renamed.get? name = some number
  size : renamed.size = kept.size

/-- No new name of a routine is an old name in a later row. -/
def InOrder (rows : List (String × String)) (kept : NameTable UInt16) : Prop :=
  rows.Pairwise fun row later => row.1 ∈ kept.names → row.2 ≠ later.1

instance : Decidable (InOrder rows kept) :=
  inferInstanceAs (Decidable (List.Pairwise _ _))

variable {row later : String × String}

theorem Renaming.old_ne (hrename : Renaming (row :: rows) kept) (hlater : later ∈ rows) :
    row.1 ≠ later.1 :=
  (List.pairwise_cons.1 (List.pairwise_map.1 hrename.olds)).1 later hlater

theorem Renaming.new_ne (hrename : Renaming (row :: rows) kept) (hlater : later ∈ rows) :
    row.2 ≠ later.2 :=
  (List.pairwise_cons.1 (List.pairwise_map.1 hrename.news)).1 later hlater

/-- A row in order leaves the routines that later rows rename as they are. -/
theorem get?_rename_of_later (hrename : Renaming (row :: rows) kept)
    (horder : InOrder (row :: rows) kept) (hlater : later ∈ rows) :
    (rename kept row.1 row.2).get? later.1 = kept.get? later.1 := by
  by_cases hrow : row.1 ∈ kept.names
  · have hnew : row.2 ≠ later.1 := (List.pairwise_cons.1 horder).1 later hlater hrow
    exact get?_rename_of_ne (hrename.old_ne hlater).symm hnew.symm
  · rw [rename_of_absent hrow]

/-- The rows behind a row rename what that row leaves. -/
theorem Renaming.tail (hrename : Renaming (row :: rows) kept) :
    Renaming rows (rename kept row.1 row.2) where
  olds := (List.nodup_cons.1 hrename.olds).2
  news := (List.nodup_cons.1 hrename.news).2
  free := by
    intro later hlater
    have hne : row.2 ≠ later.2 := hrename.new_ne hlater
    by_cases hold : later.2 = row.1
    · refine Or.inl ?_
      rw [mem_names_rename]
      intro ⟨start, _, hstart⟩
      split at hstart
      · exact hne hstart
      · rename_i hstay
        exact hstay (hstart.trans hold)
    · have hfree := hrename.free later (List.mem_cons_of_mem _ hlater)
      rw [List.map_cons, List.mem_cons] at hfree
      rw [NameTable.mem_names_congr (get?_rename_of_ne hold hne.symm)]
      exact hfree.imp_right fun hmem => hmem.resolve_left hold

theorem InOrder.tail (hrename : Renaming (row :: rows) kept)
    (horder : InOrder (row :: rows) kept) : InOrder rows (rename kept row.1 row.2) := by
  refine (List.pairwise_cons.1 horder).2.imp_of_mem ?_
  intro first later hfirst _ hnext hmem
  exact hnext ((NameTable.mem_names_congr (get?_rename_of_later hrename horder hfirst)).1 hmem)

theorem size_renameAll (hrename : Renaming rows kept) (horder : InOrder rows kept) :
    (renameAll rows kept).size = kept.size := by
  induction rows generalizing kept with
  | nil => rfl
  | cons row rows ih =>
      rw [renameAll_cons, ih hrename.tail (horder.tail hrename)]
      refine size_rename fun hrow => ?_
      rcases hrename.free row List.mem_cons_self with hfree | hmem
      · exact Or.inr hfree
      rcases List.mem_cons.1 hmem with heq | hlater
      · exact Or.inl heq
      · -- the new name would be renamed again
        obtain ⟨later, hlater, heq⟩ := List.mem_map.1 hlater
        exact absurd heq.symm ((List.pairwise_cons.1 horder).1 later hlater hrow)

/-- The number that a row moves stays where the row puts it. -/
theorem moved_of_inOrder (hrename : Renaming rows kept) (horder : InOrder rows kept) :
    ∀ row ∈ rows, ∀ number, kept.get? row.1 = some number →
      (renameAll rows kept).get? row.2 = some number := by
  induction rows generalizing kept with
  | nil => simp
  | cons first rows ih =>
      refine List.forall_mem_cons.2 ⟨fun number hnumber => ?_, fun row hrow number hnumber => ?_⟩
      · have hpresent : first.1 ∈ kept.names := NameTable.mem_names_iff.2 ⟨number, hnumber⟩
        rw [renameAll_cons, get?_renameAll_of_unmentioned, get?_rename_new hnumber]
        intro later hlater
        have hnew := (List.pairwise_cons.1 horder).1 later hlater hpresent
        exact ⟨hnew.symm, (hrename.new_ne hlater).symm⟩
      · refine ih hrename.tail (horder.tail hrename) row hrow number ?_
        rw [get?_rename_of_later hrename horder hrow, hnumber]

/-- A row whose routine is renamed again by a later row gives its new name to no routine. -/
theorem not_mem_renameAll (hnews : (rows.map (·.2)).Nodup)
    (hsublist : [row, later].Sublist rows) (heq : row.2 = later.1) :
    row.2 ∉ (renameAll rows kept).names := by
  obtain ⟨front, back, rfl, hfront, hback⟩ := List.cons_sublist_iff.1 hsublist
  have hlater : later ∈ back := List.singleton_sublist.1 hback
  have hnew : ∀ other ∈ back, other.2 ≠ later.1 := by
    intro other hother
    rw [← heq]
    exact ((List.pairwise_append.1 (List.pairwise_map.1 hnews)).2.2 row hfront other hother).symm
  rw [renameAll_append, mem_names_renameAll, heq]
  intro ⟨start, _, hstart⟩
  exact followed_ne_old (List.mem_map_of_mem hlater) hnew hstart

/-- **Rows that are applied one after the other rename all routines at once exactly if no routine
    is renamed again by a later row.** -/
theorem renamesAtOnce_iff (hrename : Renaming rows kept) :
    RenamesAtOnce rows kept (renameAll rows kept) ↔ InOrder rows kept := by
  constructor
  · intro hall
    refine List.pairwise_iff_forall_sublist.2 ?_
    intro row later hsublist hpresent heq
    obtain ⟨number, hnumber⟩ := NameTable.mem_names_iff.1 hpresent
    have hmoved := hall.moved row (hsublist.subset List.mem_cons_self) number hnumber
    exact not_mem_renameAll hrename.news hsublist heq (NameTable.mem_names_iff.2 ⟨_, hmoved⟩)
  · intro horder
    refine ⟨moved_of_inOrder hrename horder, ?_, size_renameAll hrename horder⟩
    intro name hname number hnumber
    rw [get?_renameAll_of_unmentioned hname, hnumber]

/-! ## 4. Other orders of the rows -/

/-- Rows out of a list whose routines pass their names round: each gets the old name of another. -/
structure IsRing (rows ring : List (String × String)) (kept : NameTable UInt16) : Prop where
  nonempty : ring ≠ []
  members : ring ⊆ rows
  present : ∀ row ∈ ring, row.1 ∈ kept.names
  passes : ∀ row ∈ ring, ∃ later ∈ ring, later ≠ row ∧ row.2 = later.1

variable {ring : List (String × String)}

/-- The first row of a ring gives its routine a name that another row of it still has to take. -/
theorem InOrder.not_isRing (horder : InOrder rows kept) : ¬ IsRing rows ring kept := by
  intro hring
  obtain ⟨hnonempty, hmembers, hpresent, hpasses⟩ := hring
  induction rows with
  | nil => exact hnonempty (List.eq_nil_of_subset_nil hmembers)
  | cons first rows ih =>
      obtain ⟨hfirst, hrows⟩ := List.pairwise_cons.1 horder
      by_cases hmem : first ∈ ring
      · obtain ⟨later, hlater, hne, heq⟩ := hpasses first hmem
        have hbehind : later ∈ rows := (List.mem_cons.1 (hmembers hlater)).resolve_left hne
        exact hfirst later hbehind (hpresent first hmem) heq
      · refine ih hrows fun row hrow => ?_
        exact (List.mem_cons.1 (hmembers hrow)).resolve_left (ne_of_mem_of_not_mem hrow hmem)

/-- Where no rows form a ring, some row gives its routine no old name of another row. -/
theorem exists_first_row (hnonempty : rows ≠ []) (hring : ∀ ring, ¬ IsRing rows ring kept) :
    ∃ row ∈ rows, row.1 ∈ kept.names → ∀ later ∈ rows, later ≠ row → row.2 ≠ later.1 := by
  by_contra hnone
  push Not at hnone
  exact hring rows ⟨hnonempty, List.Subset.refl rows, fun row hrow => (hnone row hrow).1,
    fun row hrow => (hnone row hrow).2⟩

theorem exists_inOrder (hrows : rows.Nodup) (hring : ∀ ring, ¬ IsRing rows ring kept) :
    ∃ others, rows.Perm others ∧ InOrder others kept := by
  -- the row that is put first is taken out, so the induction is on how many there are
  induction hlength : rows.length generalizing rows with
  | zero =>
      rw [List.length_eq_zero_iff.1 hlength]
      exact ⟨[], List.Perm.nil, List.Pairwise.nil⟩
  | succ length ih =>
      have hnonempty : rows ≠ [] := List.ne_nil_of_length_eq_add_one hlength
      obtain ⟨row, hrow, hfirst⟩ := exists_first_row hnonempty hring
      have hrest : ∀ ring, ¬ IsRing (rows.erase row) ring kept := fun ring h =>
        hring ring { h with members := List.Subset.trans h.members List.erase_subset }
      have hshorter : (rows.erase row).length = length := by
        rw [List.length_erase_of_mem hrow, hlength, Nat.add_sub_cancel]
      obtain ⟨others, hperm, horder⟩ := ih (hrows.erase row) hrest hshorter
      refine ⟨row :: others, (List.perm_cons_erase hrow).trans (hperm.cons row), ?_⟩
      refine List.pairwise_cons.2 ⟨fun later hlater hpresent => ?_, horder⟩
      obtain ⟨hne, hmem⟩ := hrows.mem_erase_iff.1 (hperm.mem_iff.2 hlater)
      exact hfirst hpresent later hmem hne

theorem Renaming.of_perm {others : List (String × String)} (hrename : Renaming rows kept)
    (hperm : rows.Perm others) : Renaming others kept where
  olds := (hperm.map _).nodup_iff.1 hrename.olds
  news := (hperm.map _).nodup_iff.1 hrename.news
  free := by
    intro row hrow
    rw [← (hperm.map _).mem_iff]
    exact hrename.free row (hperm.mem_iff.2 hrow)

/-- **Some order of the rows renames all routines at once exactly if no rows form a ring.** -/
theorem exists_renamesAtOnce_iff (hrename : Renaming rows kept) :
    (∃ others, rows.Perm others ∧ RenamesAtOnce others kept (renameAll others kept)) ↔
      ∀ ring, ¬ IsRing rows ring kept := by
  constructor
  · intro ⟨others, hperm, hall⟩ ring hring
    have horder := (renamesAtOnce_iff (hrename.of_perm hperm)).1 hall
    have hmembers : ring ⊆ others := fun row hrow => hperm.mem_iff.1 (hring.members hrow)
    exact horder.not_isRing { hring with members := hmembers }
  · intro hring
    obtain ⟨others, hperm, horder⟩ := exists_inOrder hrename.olds.of_map hring
    exact ⟨others, hperm, (renamesAtOnce_iff (hrename.of_perm hperm)).2 horder⟩

end LibraryDefinition

/-! ## 5. A base and a version that renames its routines -/

namespace Registry

open LibraryDefinition

variable {definitions : List LibraryDefinition} {definition : LibraryDefinition}
variable {registry : Registry} {md5 : String}

/-- **A version that only removes and renames routines renames all of them at once exactly if no
    row gives a routine a name that a later row takes for an old one.** Its rows can be put in such
    an order exactly if none of them pass their names round in a ring, as two that swap them do. -/
theorem ofDefinitions_renames (h : ofDefinitions definitions = .ok registry)
    (hmem : definition ∈ definitions) (hbase : definition.base = some md5)
    (hroutines : definition.routines = []) :
    ∃ base library, registry.lookup md5 = some base ∧
      registry.lookup definition.md5 = some library ∧
      let kept := definition.remaining base.routines
      (Renaming definition.renamed kept →
        (RenamesAtOnce definition.renamed kept library.routines ↔
          InOrder definition.renamed kept) ∧
        ((∃ rows, definition.renamed.Perm rows ∧ RenamesAtOnce rows kept
            ({ definition with renamed := rows }.updateRoutines base.routines)) ↔
          ∀ ring, ¬ IsRing definition.renamed ring kept)) := by
  obtain ⟨base, library, hearlier, hlibrary, hupdates⟩ := exists_extension h hmem hbase
  refine ⟨base, library, hearlier, hlibrary, ?_⟩
  intro kept hrename
  have hupdate : ∀ rows,
      { definition with renamed := rows }.updateRoutines base.routines = renameAll rows kept := by
    intro rows
    rw [updateRoutines_eq, hroutines]
    rfl
  constructor
  · have hself : definition.updateRoutines base.routines = renameAll definition.renamed kept :=
      hupdate definition.renamed
    rw [hupdates.routines, hself]
    exact renamesAtOnce_iff hrename
  · simp only [hupdate]
    exact exists_renamesAtOnce_iff hrename

/-- A library with two routines, and a version of it with other names. -/
def retitled (rows : List (String × String)) : List LibraryDefinition :=
  [whole "a1" .pro "Tools" "1.0" [("Load", 2), ("Save", 3)],
    { whole "b2" .pro "Tools" "1.1" [] with base := some "a1", renamed := rows }]

/-- A chain of two rows works from its end. -/
theorem ofDefinitions_renames_chain :
    let rows := [("Save", "Store"), ("Load", "Save")]
    ∃ registry base library, ofDefinitions (retitled rows) = .ok registry ∧
      registry.lookup "a1" = some base ∧ registry.lookup "b2" = some library ∧
      Renaming rows base.routines ∧ RenamesAtOnce rows base.routines library.routines := by
  intro rows
  obtain ⟨registry, hregistry, earlier, hearlier, hrename, horder⟩ :
      ∃ registry ∈ (ofDefinitions (retitled rows)).toOption, ∃ base ∈ registry.lookup "a1",
        Renaming rows base.routines ∧ InOrder rows base.routines := by
    decide +kernel
  have h := eq_ok_of_mem_toOption hregistry
  obtain ⟨base, library, hbase, hlibrary, hiff⟩ :=
    ofDefinitions_renames h (List.mem_cons_of_mem _ List.mem_cons_self) rfl rfl
  obtain rfl : earlier = base := Option.some.inj (hearlier.symm.trans hbase)
  exact ⟨registry, earlier, library, h, hbase, hlibrary, hrename, (hiff hrename).1.2 horder⟩

/-- The same chain from its front: the routine `Save` is overwritten before it gets its name. -/
theorem retitled_loses : ∃ registry base library,
    ofDefinitions (retitled [("Load", "Save"), ("Save", "Store")]) = .ok registry ∧
      registry.lookup "a1" = some base ∧ registry.lookup "b2" = some library ∧
      Renaming [("Load", "Save"), ("Save", "Store")] base.routines ∧ base.routines.size = 2 ∧
      library.routines.rows = [("Store", 2)] ∧
      ¬ RenamesAtOnce [("Load", "Save"), ("Save", "Store")] base.routines library.routines := by
  obtain ⟨registry, hregistry, base, hbase, library, hlibrary, hrename, htwo, hrows⟩ :
      ∃ registry ∈ (ofDefinitions (retitled [("Load", "Save"), ("Save", "Store")])).toOption,
        ∃ base ∈ registry.lookup "a1", ∃ library ∈ registry.lookup "b2",
          Renaming [("Load", "Save"), ("Save", "Store")] base.routines ∧
          base.routines.size = 2 ∧ library.routines.rows = [("Store", 2)] := by
    decide +kernel
  refine ⟨registry, base, library, eq_ok_of_mem_toOption hregistry, hbase, hlibrary, hrename, htwo,
    hrows, fun hall => ?_⟩
  have hsize := hall.size
  rw [NameTable.size, hrows, htwo] at hsize
  cases hsize

end Registry

end AmigaBinary
