import AmigaBinary.Proofs.Registry.Renaming

/-!
# Aliases and the routines they stand for

A definition removes and renames routines of its base, but takes its aliases over as they are. So
an alias stands for a routine in the version that lists it, and in a later version exactly if that
one still offers a routine under the name of its original (`ofDefinitions_aliases`).
-/

namespace AmigaBinary

/-! ## 1. Names that a definition keeps -/

namespace LibraryDefinition

variable {definition : LibraryDefinition} {base : NameTable UInt16} {name : String}

/-- A definition offers a routine under a name: it lists one, or its renames lead to the name from
    a routine of the base that it does not remove. -/
def Offers (definition : LibraryDefinition) (inherited : List String) (name : String) : Prop :=
  name ∈ definition.routines.map (·.1) ∨
    ∃ start ∈ inherited, start ∉ definition.removed ∧ followed definition.renamed start = name

instance (inherited : List String) : Decidable (definition.Offers inherited name) :=
  inferInstanceAs (Decidable (_ ∨ _))

theorem mem_names_updateRoutines :
    name ∈ (definition.updateRoutines base).names ↔ definition.Offers base.names name := by
  rw [updateRoutines_eq, NameTable.mem_names_insertAll, mem_names_renameAll]
  refine or_congr_right (exists_congr fun start => ?_)
  rw [remaining, NameTable.mem_names_eraseAll]
  tauto

end LibraryDefinition

/-! ## 2. A version and its base -/

/-- Every alias of a library stands for one of its routines. -/
def ResolvedLibrary.AliasesStand (library : ResolvedLibrary) : Prop :=
  ∀ entry ∈ library.same.rows, entry.2 ∈ library.routines.names

instance (library : ResolvedLibrary) : Decidable library.AliasesStand :=
  inferInstanceAs (Decidable (∀ entry ∈ library.same.rows, _))

namespace LibraryDefinition

variable {definition : LibraryDefinition} {base library : ResolvedLibrary}

/-- The aliases that a definition lists itself stand for routines of its library. -/
def OwnAliasesStand (definition : LibraryDefinition) (library : ResolvedLibrary) : Prop :=
  ∀ pair ∈ definition.same, pair.2 ∈ library.routines.names

instance : Decidable (definition.OwnAliasesStand library) :=
  inferInstanceAs (Decidable (∀ pair ∈ definition.same, _))

/-- A definition has a routine for every alias of a base that it does not list anew. -/
def KeepsOriginals (definition : LibraryDefinition) (base : ResolvedLibrary) : Prop :=
  ∀ entry ∈ base.same.rows, entry.1 ∉ definition.same.map (·.1) →
    definition.Offers base.routines.names entry.2

instance : Decidable (definition.KeepsOriginals base) :=
  inferInstanceAs (Decidable (∀ entry ∈ base.same.rows, _))

/-- **The aliases of a version stand exactly if it keeps the originals of those it takes over.** -/
theorem UpdatesTo.aliasesStand_iff
    (hupdates : UpdatesTo definition base.routines base.same library)
    (hown : definition.OwnAliasesStand library) :
    library.AliasesStand ↔ definition.KeepsOriginals base := by
  have hnames : ∀ name, name ∈ library.routines.names ↔
      definition.Offers base.routines.names name := by
    intro name
    rw [hupdates.routines, mem_names_updateRoutines]
  constructor
  · intro hstand entry hentry hnew
    refine (hnames _).1 (hstand entry ?_)
    rw [hupdates.same]
    exact NameTable.mem_insertAll_iff.2 (Or.inr ⟨hnew, hentry⟩)
  · intro hkeeps entry hentry
    rw [hupdates.same] at hentry
    rcases NameTable.mem_insertAll_iff.1 hentry with hlisted | ⟨hnew, htaken⟩
    · exact hown entry (List.mem_reverse.1 (NameTable.mem_of_lookup hlisted))
    · exact (hnames _).2 (hkeeps entry htaken hnew)

/-- The aliases of a first version stand. -/
theorem UpdatesTo.aliasesStand (hupdates : UpdatesTo definition .empty .empty library)
    (hown : definition.OwnAliasesStand library) : library.AliasesStand := by
  intro entry hentry
  rw [hupdates.same] at hentry
  rcases NameTable.mem_of_insertAll hentry with hlisted | hnone
  · exact hown entry hlisted
  · cases hnone

end LibraryDefinition

/-! ## 3. Chains of versions -/

namespace ResolvedLibrary

open LibraryDefinition

variable {definition : LibraryDefinition} {links : List LibraryDefinition}
variable {entry : String × String}

theorem exists_link_of_mem_foldl {same : NameTable String}
    (h : entry ∈ (links.foldl (fun table link => link.updateSame table) same).rows) :
    entry ∈ same.rows ∨ ∃ link ∈ links, entry ∈ link.same := by
  induction links generalizing same with
  | nil => exact Or.inl h
  | cons link links ih =>
      rw [List.exists_mem_cons_iff]
      rcases ih h with hmem | hlater
      · exact (NameTable.mem_of_insertAll hmem).symm.imp_right Or.inl
      · exact Or.inr (Or.inr hlater)

/-- An alias of a library is listed by a definition of its chain. -/
theorem exists_link_of_mem_same (h : entry ∈ (ofChain definition links).same.rows) :
    ∃ link ∈ links, entry ∈ link.same :=
  (exists_link_of_mem_foldl h).resolve_left List.not_mem_nil

end ResolvedLibrary

namespace Registry

open LibraryDefinition

variable {definitions : List LibraryDefinition} {definition : LibraryDefinition}
variable {registry : Registry} {library : ResolvedLibrary}

/-- An alias stands in the version of the chain that lists it. -/
def ListsStanding (registry : Registry) (definitions : List LibraryDefinition)
    (library : ResolvedLibrary) : Prop :=
  ∀ entry ∈ library.same.rows, ∃ link ∈ definitions, link.md5 ∈ library.chain ∧
    entry ∈ link.same ∧ ∃ listed, registry.lookup link.md5 = some listed ∧
      entry.2 ∈ listed.routines.names

/-- The aliases that each definition lists itself stand. -/
def OwnAliasesStand (registry : Registry) (definitions : List LibraryDefinition) : Prop :=
  ∀ definition ∈ definitions, ∀ library ∈ registry.lookup definition.md5,
    definition.OwnAliasesStand library

instance : Decidable (registry.OwnAliasesStand definitions) :=
  inferInstanceAs (Decidable (∀ definition ∈ definitions, _))

theorem listsStanding_of_lookup (h : ofDefinitions definitions = .ok registry)
    (hown : registry.OwnAliasesStand definitions) {md5 : String}
    (hlookup : registry.lookup md5 = some library) :
    registry.ListsStanding definitions library := by
  obtain ⟨definition, _, links, hlineage, _, rfl⟩ := (lookup_eq_some h).1 hlookup
  intro entry hentry
  obtain ⟨link, hlink, hlists⟩ := ResolvedLibrary.exists_link_of_mem_same hentry
  have hmem := hlineage.members link hlink
  obtain ⟨_, _, hlisted⟩ := exists_lookup h hmem
  exact ⟨link, hmem, List.mem_map_of_mem hlink, hlists, _, hlisted,
    hown link hmem _ hlisted entry hlists⟩

theorem aliasesStand_iff (h : ofDefinitions definitions = .ok registry)
    (hown : registry.OwnAliasesStand definitions) (hmem : definition ∈ definitions) :
    ∃ library, registry.lookup definition.md5 = some library ∧
      (library.AliasesStand ↔
        ∀ base ∈ definition.base.bind registry.lookup, definition.KeepsOriginals base) := by
  cases hbase : definition.base with
  | none =>
      obtain ⟨library, hlookup, hupdates⟩ := exists_root h hmem hbase
      refine ⟨library, hlookup, iff_of_true ?_ (by simp)⟩
      exact hupdates.aliasesStand (hown definition hmem library hlookup)
  | some md5 =>
      obtain ⟨base, library, hearlier, hlookup, hupdates⟩ := exists_extension h hmem hbase
      refine ⟨library, hlookup, ?_⟩
      rw [hupdates.aliasesStand_iff (hown definition hmem library hlookup)]
      simp [hearlier]

/-- **No alias of a registry dangles exactly if every definition keeps the originals of the
    aliases that it takes over from its base**, where each definition lists its own aliases for
    routines of its library. The same holds for every library by itself, and each alias stands for
    a routine in the version that lists it. -/
theorem ofDefinitions_aliases (h : ofDefinitions definitions = .ok registry)
    (hown : registry.OwnAliasesStand definitions) :
    (∀ definition ∈ definitions, ∃ library, registry.lookup definition.md5 = some library ∧
      registry.ListsStanding definitions library ∧
      (library.AliasesStand ↔
        ∀ base ∈ definition.base.bind registry.lookup, definition.KeepsOriginals base)) ∧
      ((∀ md5 library, registry.lookup md5 = some library → library.AliasesStand) ↔
        ∀ definition ∈ definitions, ∀ base ∈ definition.base.bind registry.lookup,
          definition.KeepsOriginals base) := by
  have heach := fun definition (hmem : definition ∈ definitions) => aliasesStand_iff h hown hmem
  refine ⟨fun definition hmem => ?_, ?_, ?_⟩
  · obtain ⟨library, hlookup, hiff⟩ := heach definition hmem
    exact ⟨library, hlookup, listsStanding_of_lookup h hown hlookup, hiff⟩
  · intro hstand definition hmem
    obtain ⟨library, hlookup, hiff⟩ := heach definition hmem
    exact hiff.1 (hstand _ library hlookup)
  · intro hkeeps md5 library hlookup
    obtain ⟨definition, hmem, _, _, rfl, _⟩ := (lookup_eq_some h).1 hlookup
    obtain ⟨other, hother, hiff⟩ := heach definition hmem
    obtain rfl : library = other := Option.some.inj (hlookup.symm.trans hother)
    exact hiff.2 (hkeeps definition hmem)

/-- A library and two later versions of it: one removes a routine without an alias, the other
    renames one with an alias and lists the alias for the new name. -/
def maintained : List LibraryDefinition :=
  [{ whole "c3" .pro "Tools" "1.2" [] with
      base := some "b2", renamed := [("Save", "Keep")], same := [("Store", "Keep")] },
    { whole "a1" .pro "Tools" "1.0" [("Load", 2), ("Save", 3)] with same := [("Store", "Save")] },
    { whole "b2" .pro "Tools" "1.1" [] with base := some "a1", removed := ["Load"] }]

/-- No alias of the three versions dangles. -/
theorem ofDefinitions_aliases_maintained : ∃ registry, ofDefinitions maintained = .ok registry ∧
    registry.OwnAliasesStand maintained ∧
      ∀ md5 library, registry.lookup md5 = some library → library.AliasesStand := by
  obtain ⟨registry, hregistry, hown, hkeeps⟩ :
      ∃ registry ∈ (ofDefinitions maintained).toOption, registry.OwnAliasesStand maintained ∧
        ∀ definition ∈ maintained, ∀ base ∈ definition.base.bind registry.lookup,
          definition.KeepsOriginals base := by
    decide +kernel
  have h := eq_ok_of_mem_toOption hregistry
  exact ⟨registry, h, hown, (ofDefinitions_aliases h hown).2.2 hkeeps⟩

/-- A library, and a version of it that removes the only routine. -/
def emptied : List LibraryDefinition :=
  [{ whole "a1" .pro "Tools" "1.0" [("Save", 3)] with same := [("Store", "Save")] },
    { whole "b2" .pro "Tools" "1.1" [] with base := some "a1", removed := ["Save"] }]

/-- The version without routines still has an alias for the one that it removes. -/
theorem emptied_dangles : ∃ registry library, ofDefinitions emptied = .ok registry ∧
    registry.OwnAliasesStand emptied ∧ registry.lookup "b2" = some library ∧
      library.routines.rows = [] ∧ library.same.rows = [("Store", "Save")] ∧
      ¬ library.AliasesStand := by
  obtain ⟨registry, hregistry, hown, library, hlibrary, htables⟩ :
      ∃ registry ∈ (ofDefinitions emptied).toOption, registry.OwnAliasesStand emptied ∧
        ∃ library ∈ registry.lookup "b2", library.routines.rows = [] ∧
          library.same.rows = [("Store", "Save")] ∧ ¬ library.AliasesStand := by
    decide +kernel
  exact ⟨registry, library, eq_ok_of_mem_toOption hregistry, hown, hlibrary, htables⟩

end Registry

end AmigaBinary
