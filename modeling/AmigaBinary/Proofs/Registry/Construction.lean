import AmigaBinary.Proofs.Registry.Chains
import AmigaBinary.Proofs.Registry.Lookups
import Mathlib.Data.List.Forall2

/-!
# Building a registry

A registry is built from a list of definitions exactly if the list is grounded, and it holds one
library for each of them, whose chain is the lineage of the definition
(`ofDefinitions_grounded`).
-/

namespace AmigaBinary

open LibraryDefinition

variable {definitions : List LibraryDefinition} {registry : Registry}

namespace Registry

/-! ## 1. The libraries of a registry -/

theorem hasRepeated_eq_false {names : List String} : hasRepeated names = false ↔ names.Nodup := by
  induction names with
  | nil => simp [hasRepeated]
  | cons name names ih => simp [hasRepeated, ih]

theorem resolveAll_eq_ok {all rest : List LibraryDefinition}
    {libraries : List (String × ResolvedLibrary)} : resolveAll all rest = .ok libraries ↔
      List.Forall₂ (fun definition entry => ∃ links, definition.chain all = .ok links ∧
        entry = (definition.md5, .ofChain definition links)) rest libraries := by
  induction rest generalizing libraries with
  | nil => simp [resolveAll, eq_comm]
  | cons definition rest ih =>
      simp only [resolveAll, bind_eq_ok, ih, List.forall₂_cons_left_iff, Except.ok.injEq]
      constructor
      · intro ⟨links, hlinks, libraries, hlibraries, heq⟩
        exact ⟨_, _, ⟨links, hlinks, rfl⟩, hlibraries, heq.symm⟩
      · intro ⟨entry, libraries, ⟨links, hlinks, hentry⟩, hlibraries, heq⟩
        exact ⟨links, hlinks, libraries, hlibraries, by rw [heq, hentry]⟩

theorem exists_resolveAll_iff {all rest : List LibraryDefinition} :
    (∃ libraries, resolveAll all rest = .ok libraries) ↔
      ∀ definition ∈ rest, ∃ links, definition.chain all = .ok links := by
  simp only [resolveAll_eq_ok, exists_forall₂_iff]
  refine forall₂_congr fun definition _ => ⟨?_, ?_⟩
  · intro ⟨entry, links, hlinks, _⟩
    exact ⟨links, hlinks⟩
  · intro ⟨links, hlinks⟩
    exact ⟨_, links, hlinks, rfl⟩

/-- A registry is made of the libraries of its definitions, if no digest repeats. -/
theorem ofDefinitions_eq_ok : ofDefinitions definitions = .ok registry ↔
    (definitions.map (·.md5)).Nodup ∧ ∃ libraries,
      resolveAll definitions definitions = .ok libraries ∧
        registry = ⟨NameTable.empty.insertAll libraries⟩ := by
  rw [← hasRepeated_eq_false, ofDefinitions]
  cases hasRepeated (definitions.map (·.md5)) with
  | true => simp
  | false =>
      cases resolveAll definitions definitions with
      | error fault => simp
      | ok libraries => simp [eq_comm]

/-- **Exactly grounded definitions make a registry.** -/
theorem exists_ofDefinitions_iff :
    (∃ registry, ofDefinitions definitions = .ok registry) ↔ Grounded definitions := by
  rw [grounded_iff, ← exists_resolveAll_iff]
  simp only [ofDefinitions_eq_ok]
  constructor
  · intro ⟨registry, hdistinct, libraries, hlibraries, _⟩
    exact ⟨hdistinct, libraries, hlibraries⟩
  · intro ⟨hdistinct, libraries, hlibraries⟩
    exact ⟨_, hdistinct, libraries, hlibraries, rfl⟩

theorem grounded_of_ok (h : ofDefinitions definitions = .ok registry) : Grounded definitions :=
  exists_ofDefinitions_iff.1 ⟨registry, h⟩

/-- The libraries that are resolved are those of the definitions with their chains. -/
theorem mem_of_resolveAll {all rest : List LibraryDefinition}
    {libraries : List (String × ResolvedLibrary)} (h : resolveAll all rest = .ok libraries)
    {entry : String × ResolvedLibrary} : entry ∈ libraries ↔ ∃ definition ∈ rest, ∃ links,
      definition.chain all = .ok links ∧ entry = (definition.md5, .ofChain definition links) := by
  rw [resolveAll_eq_ok] at h
  induction h with
  | nil => simp
  | @cons definition first rest libraries hfirst hrest ih =>
      obtain ⟨links, hlinks, rfl⟩ := hfirst
      rw [List.mem_cons, ih, List.exists_mem_cons_iff]
      refine or_congr_left ⟨?_, ?_⟩
      · intro heq
        exact ⟨links, hlinks, heq⟩
      · intro ⟨other, hother, heq⟩
        rw [heq, Except.ok.inj (hother.symm.trans hlinks)]

theorem md5s_of_resolveAll {all rest : List LibraryDefinition}
    {libraries : List (String × ResolvedLibrary)} (h : resolveAll all rest = .ok libraries) :
    libraries.map (·.1) = rest.map (·.md5) := by
  rw [resolveAll_eq_ok] at h
  induction h with
  | nil => rfl
  | cons hfirst hrest ih =>
      obtain ⟨links, -, rfl⟩ := hfirst
      rw [List.map_cons, List.map_cons, ih]

/-- **A registry holds the library of each definition with its lineage, and no other.** -/
theorem lookup_eq_some (h : ofDefinitions definitions = .ok registry) {md5 : String}
    {library : ResolvedLibrary} : registry.lookup md5 = some library ↔
      ∃ definition ∈ definitions, ∃ links, Lineage definitions definition links ∧
        definition.md5 = md5 ∧ library = .ofChain definition links := by
  obtain ⟨hdistinct, libraries, hlibraries, rfl⟩ := ofDefinitions_eq_ok.1 h
  have hkeys : (libraries.map (·.1)).Nodup := by
    rw [md5s_of_resolveAll hlibraries]
    exact hdistinct
  rw [lookup, NameTable.get?_ofPairs hkeys, mem_of_resolveAll hlibraries]
  refine exists_congr fun definition => and_congr_right fun hmem => exists_congr fun links => ?_
  rw [chain_eq_ok (grounded_of_ok h) hmem, Prod.mk.injEq, eq_comm (a := md5)]

theorem size_eq (h : ofDefinitions definitions = .ok registry) :
    registry.size = definitions.length := by
  obtain ⟨hdistinct, libraries, hlibraries, rfl⟩ := ofDefinitions_eq_ok.1 h
  have hkeys := md5s_of_resolveAll hlibraries
  rw [← hkeys] at hdistinct
  rw [size, NameTable.size_ofPairs hdistinct]
  simpa using congrArg List.length hkeys

/-- A registry has one library for each definition, and the digests of the chain of a library are
    those of the lineage of its definition. -/
structure HoldsEach (registry : Registry) (definitions : List LibraryDefinition) : Prop where
  size : registry.size = definitions.length
  only : ∀ md5 library, registry.lookup md5 = some library →
    ∃ definition ∈ definitions, definition.md5 = md5
  entry : ∀ definition ∈ definitions, ∃ library links,
    registry.lookup definition.md5 = some library ∧ library.md5 = definition.md5 ∧
      Lineage definitions definition links ∧ library.chain = links.map (·.md5) ∧
      library.chain.Nodup

/-- A definition of an accepted list has a lineage, and its library is made of it. -/
theorem exists_lookup (h : ofDefinitions definitions = .ok registry)
    {definition : LibraryDefinition} (hmem : definition ∈ definitions) :
    ∃ links, Lineage definitions definition links ∧
      registry.lookup definition.md5 = some (.ofChain definition links) := by
  have hall := grounded_of_ok h
  obtain ⟨links, hlinks⟩ := exists_chain hall hmem
  have hlineage := (chain_eq_ok hall hmem).1 hlinks
  exact ⟨links, hlineage, (lookup_eq_some h).2 ⟨definition, hmem, links, hlineage, rfl, rfl⟩⟩

theorem holdsEach_of_ok (h : ofDefinitions definitions = .ok registry) :
    registry.HoldsEach definitions where
  size := size_eq h
  only := by
    intro md5 library hlibrary
    obtain ⟨definition, hmem, _, _, hmd5, _⟩ := (lookup_eq_some h).1 hlibrary
    exact ⟨definition, hmem, hmd5⟩
  entry := by
    intro definition hmem
    obtain ⟨links, hlineage, hlibrary⟩ := exists_lookup h hmem
    have hnodup := (grounded_of_ok h).acyclic _ _ hlineage.toTrail
    exact ⟨_, links, hlibrary, rfl, hlineage, rfl, hnodup⟩

/-- **Exactly the grounded lists of definitions make a registry**, which has a library for each
    definition. The search for a chain ends on every list, after at most one round more than there
    are definitions. -/
theorem ofDefinitions_grounded (definitions : List LibraryDefinition) :
    ((∃ registry, ofDefinitions definitions = .ok registry) ↔ Grounded definitions) ∧
      (∀ definition rounds, definitions.length < rounds →
        walk definitions definition rounds definition [] = some (definition.chain definitions)) ∧
      ∀ registry, ofDefinitions definitions = .ok registry → registry.HoldsEach definitions :=
  ⟨exists_ofDefinitions_iff, fun definition _ h => walk_eq_chain definition h,
    fun _ h => holdsEach_of_ok h⟩

/-- A library and two later versions of it, the last of them first. -/
def versions : List LibraryDefinition :=
  [{ whole "c3" .pro "Tools" "1.2" [("Free", 5)] with
      base := some "b2", removed := ["Save"], same := [("Release", "Free")] },
    whole "a1" .pro "Tools" "1.0" [("Load", 2), ("Save", 3)],
    { whole "b2" .pro "Tools" "1.1" [] with base := some "a1", renamed := [("Load", "Fetch")] }]

/-- Three definitions, the last two of which extend each other. -/
def looped : List LibraryDefinition :=
  [{ whole "c3" .pro "Tools" "1.2" [] with base := some "b2" },
    { whole "a1" .pro "Tools" "1.0" [] with base := some "b2" },
    { whole "b2" .pro "Tools" "1.1" [] with base := some "a1" }]

theorem exists_versions : ∃ registry, ofDefinitions versions = .ok registry :=
  exists_of_isOk (by decide +kernel)

/-- The versions make a registry, and the search that goes round ends in four rounds. -/
theorem ofDefinitions_grounded_versions :
    (∃ registry, ofDefinitions versions = .ok registry ∧ registry.HoldsEach versions) ∧
      Grounded versions ∧ looped.length < 4 ∧ ∀ definition ∈ looped,
        definition.chain looped = .error (.cyclicChain definition.name definition.version) := by
  have hlt : looped.length < 4 := by decide
  have hwalk : ∀ definition ∈ looped, walk looped definition 4 definition [] =
      some (.error (.cyclicChain definition.name definition.version)) := by decide
  obtain ⟨hiff, -, hholds⟩ := ofDefinitions_grounded versions
  obtain ⟨registry, hregistry⟩ := exists_versions
  refine ⟨⟨registry, hregistry, hholds registry hregistry⟩, hiff.1 ⟨registry, hregistry⟩, hlt, ?_⟩
  intro definition hmem
  have hchain := (ofDefinitions_grounded looped).2.1 definition 4 hlt
  exact Option.some.inj (hchain.symm.trans (hwalk definition hmem))

end Registry

end AmigaBinary
