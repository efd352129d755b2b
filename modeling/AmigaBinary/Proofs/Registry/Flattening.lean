import AmigaBinary.Proofs.Registry.Construction

/-!
# Libraries and the libraries of their bases

Each library of a registry is made from the whole lineage of its definition. It is also what the
definition makes of the library of its base alone (`Flattens`), and the order in which the
definitions are listed does not count (`ofDefinitions_flattens`).
-/

namespace AmigaBinary

open LibraryDefinition

variable {definitions others links : List LibraryDefinition}
variable {definition earlier : LibraryDefinition} {registry : Registry}

/-! ## 1. A library and its base -/

/-- A library is what its definition makes of the tables of a base. -/
structure LibraryDefinition.Flattens (definition : LibraryDefinition)
    (routines : String → Option UInt16) (same : String → Option String)
    (library : ResolvedLibrary) : Prop where
  routines : library.routines.get? = definition.numbersOver routines
  same : library.same.get? = definition.originalsOver same

namespace ResolvedLibrary

/-- A chain is merged one definition after the other. -/
theorem flattens_concat : Flattens definition (ofChain earlier links).routines.get?
    (ofChain earlier links).same.get? (ofChain definition (links ++ [definition])) where
  routines := by
    rw [← get?_updateRoutines]
    simp only [ofChain, List.foldl_append, List.foldl_cons, List.foldl_nil]
  same := by
    rw [← get?_updateSame]
    simp only [ofChain, List.foldl_append, List.foldl_cons, List.foldl_nil]

/-- A definition alone is merged into empty tables. -/
theorem flattens_single :
    Flattens definition (fun _ => none) (fun _ => none) (ofChain definition [definition]) where
  routines := get?_updateRoutines
  same := get?_updateSame

end ResolvedLibrary

namespace Registry

theorem flattens_of_root (h : ofDefinitions definitions = .ok registry)
    (hmem : definition ∈ definitions) (hlineage : Lineage definitions definition links)
    (hbase : definition.base = none) :
    Flattens definition (fun _ => none) (fun _ => none) (.ofChain definition links) := by
  have hdistinct := (grounded_of_ok h).distinct
  rw [hlineage.unique hdistinct (lineage_single hmem hbase)]
  exact ResolvedLibrary.flattens_single

theorem flattens_of_base (h : ofDefinitions definitions = .ok registry)
    (hmem : definition ∈ definitions) (hlineage : Lineage definitions definition links)
    {md5 : String} (hbase : definition.base = some md5) :
    ∃ base, registry.lookup md5 = some base ∧
      Flattens definition base.routines.get? base.same.get? (.ofChain definition links) := by
  have hall := grounded_of_ok h
  obtain ⟨earlier, hearlier, rfl⟩ := hall.known _ hmem _ hbase
  obtain ⟨front, hfront, hlookup⟩ := exists_lookup h hearlier
  refine ⟨_, hlookup, ?_⟩
  rw [hlineage.unique hall.distinct (hfront.concat hmem hbase)]
  exact ResolvedLibrary.flattens_concat

end Registry

namespace LibraryDefinition

/-- A library with the tables that its definition makes of those of a base. -/
structure UpdatesTo (definition : LibraryDefinition) (routines : NameTable UInt16)
    (same : NameTable String) (library : ResolvedLibrary) : Prop where
  routines : library.routines = definition.updateRoutines routines
  same : library.same = definition.updateSame same

theorem Flattens.updatesTo {routines : NameTable UInt16} {same : NameTable String}
    {library : ResolvedLibrary} (h : Flattens definition routines.get? same.get? library) :
    UpdatesTo definition routines same library where
  routines := NameTable.ext_get? fun name => by rw [h.routines, get?_updateRoutines]
  same := NameTable.ext_get? fun name => by rw [h.same, get?_updateSame]

end LibraryDefinition

namespace Registry

theorem exists_root (h : ofDefinitions definitions = .ok registry) (hmem : definition ∈ definitions)
    (hbase : definition.base = none) : ∃ library,
      registry.lookup definition.md5 = some library ∧ UpdatesTo definition .empty .empty library := by
  obtain ⟨links, hlineage, hlookup⟩ := exists_lookup h hmem
  exact ⟨_, hlookup, (flattens_of_root h hmem hlineage hbase).updatesTo⟩

theorem exists_extension (h : ofDefinitions definitions = .ok registry)
    (hmem : definition ∈ definitions) {md5 : String} (hbase : definition.base = some md5) :
    ∃ base library, registry.lookup md5 = some base ∧
      registry.lookup definition.md5 = some library ∧
      UpdatesTo definition base.routines base.same library := by
  obtain ⟨links, hlineage, hlookup⟩ := exists_lookup h hmem
  obtain ⟨base, hearlier, hflattens⟩ := flattens_of_base h hmem hlineage hbase
  exact ⟨base, _, hearlier, hlookup, hflattens.updatesTo⟩

end Registry

/-! ## 2. The order of the definitions -/

namespace LibraryDefinition

theorem Trail.of_perm (hperm : definitions.Perm others) (h : Trail definitions definition links) :
    Trail others definition links :=
  ⟨h.last, h.linked, fun link hlink => hperm.mem_iff.1 (h.members link hlink)⟩

theorem lineage_perm (hperm : definitions.Perm others) :
    Lineage definitions definition links ↔ Lineage others definition links :=
  ⟨fun h => ⟨h.toTrail.of_perm hperm, h.root⟩, fun h => ⟨h.toTrail.of_perm hperm.symm, h.root⟩⟩

theorem Grounded.of_perm (hperm : definitions.Perm others) (h : Grounded definitions) :
    Grounded others where
  distinct := (hperm.map _).nodup_iff.1 h.distinct
  known := by
    intro definition hmem md5 hbase
    obtain ⟨earlier, hearlier, hmd5⟩ := h.known definition (hperm.mem_iff.2 hmem) md5 hbase
    exact ⟨earlier, hperm.mem_iff.1 hearlier, hmd5⟩
  acyclic := fun definition links htrail => h.acyclic definition links (htrail.of_perm hperm.symm)

end LibraryDefinition

namespace Registry

/-- Registries that answer alike are equal. -/
theorem ext_lookup {other : Registry} (h : ∀ md5 library,
    registry.lookup md5 = some library ↔ other.lookup md5 = some library) : registry = other := by
  obtain ⟨libraries⟩ := registry
  obtain ⟨others⟩ := other
  exact congrArg Registry.mk (NameTable.ext_get? fun md5 => Option.ext (h md5))

/-- Definitions in another order make the same registry. -/
theorem ofDefinitions_perm (hperm : definitions.Perm others)
    (h : ofDefinitions definitions = .ok registry) : ofDefinitions others = .ok registry := by
  obtain ⟨other, hother⟩ := exists_ofDefinitions_iff.2 ((grounded_of_ok h).of_perm hperm)
  have hlookup : ∀ md5 library,
      registry.lookup md5 = some library ↔ other.lookup md5 = some library := by
    intro md5 library
    simp only [lookup_eq_some h, lookup_eq_some hother, hperm.mem_iff, lineage_perm hperm]
  rw [hother, ext_lookup hlookup]

/-- **A library is what its definition makes of the library of its base**, or of nothing if it has
    none, and the order of the definitions does not count. -/
theorem ofDefinitions_flattens (h : ofDefinitions definitions = .ok registry) :
    (∀ definition ∈ definitions, ∃ library, registry.lookup definition.md5 = some library ∧
      (definition.base = none → Flattens definition (fun _ => none) (fun _ => none) library) ∧
      ∀ md5, definition.base = some md5 → ∃ base, registry.lookup md5 = some base ∧
        Flattens definition base.routines.get? base.same.get? library) ∧
      ∀ others, definitions.Perm others → ofDefinitions others = .ok registry := by
  refine ⟨fun definition hmem => ?_, fun others hperm => ofDefinitions_perm hperm h⟩
  obtain ⟨links, hlineage, hlookup⟩ := exists_lookup h hmem
  exact ⟨_, hlookup, flattens_of_root h hmem hlineage,
    fun md5 hbase => flattens_of_base h hmem hlineage hbase⟩

/-- The last of the versions is made from the one before, and the first from nothing, in either
    order of the list. -/
theorem ofDefinitions_flattens_versions :
    ∃ registry first second third, ofDefinitions versions = .ok registry ∧
      ofDefinitions versions.reverse = .ok registry ∧ registry.lookup "a1" = some first ∧
      registry.lookup "b2" = some second ∧ registry.lookup "c3" = some third ∧
      (∀ definition ∈ versions[1]?, Flattens definition (fun _ => none) (fun _ => none) first) ∧
      ∀ definition ∈ versions[0]?,
        Flattens definition second.routines.get? second.same.get? third := by
  obtain ⟨registry, hregistry⟩ := exists_versions
  obtain ⟨hflattens, hperm⟩ := ofDefinitions_flattens hregistry
  obtain ⟨third, hthird, -, hbase⟩ := hflattens versions[0] (by decide)
  obtain ⟨first, hfirst, hroot, -⟩ := hflattens versions[1] (by decide)
  obtain ⟨second, hsecond, hmade⟩ := hbase "b2" rfl
  refine ⟨registry, first, second, third, hregistry, hperm _ versions.reverse_perm.symm, hfirst,
    hsecond, hthird, ?_, ?_⟩
  · intro definition hdefinition
    rw [← Option.some.inj hdefinition]
    exact hroot rfl
  · intro definition hdefinition
    rw [← Option.some.inj hdefinition]
    exact hmade

end Registry

end AmigaBinary
