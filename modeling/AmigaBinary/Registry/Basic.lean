import AmigaBinary.Error
import AmigaBinary.Registry.Definition

/-!
# The registry of libraries

A registry holds libraries by the digest of their file. It is built from a list of definitions: the
bases of each are merged into it, the oldest first.
-/

namespace AmigaBinary

/-! ## 1. Chains of bases -/

namespace LibraryDefinition

/-- The definitions other than those with a digest. -/
def without (md5 : String) (definitions : List LibraryDefinition) : List LibraryDefinition :=
  definitions.filter fun definition => definition.md5 ≠ md5

/-- The definition with a digest. -/
def find? (md5 : String) (definitions : List LibraryDefinition) : Option LibraryDefinition :=
  definitions.find? fun definition => definition.md5 = md5

theorem length_without {md5 : String} {definitions : List LibraryDefinition}
    {found : LibraryDefinition} (h : find? md5 definitions = some found) :
    (without md5 definitions).length < definitions.length :=
  List.length_filter_lt_length_iff_exists.mpr
    ⟨found, List.mem_of_find?_eq_some h, by simpa using List.find?_some h⟩

/-- The bases of `current`, nearest first. `unvisited` are the definitions that the chain from
    `top` to `current` has not passed. -/
def basesFrom (all : List LibraryDefinition) (top : LibraryDefinition)
    (unvisited : List LibraryDefinition) (current : LibraryDefinition) :
    Except RegistryFault (List LibraryDefinition) :=
  match current.base with
  | none => .ok []
  | some md5 =>
    match _h : find? md5 unvisited with
    | some next =>
      match basesFrom all top (without md5 unvisited) next with
      | .ok bases => .ok (next :: bases)
      | .error fault => .error fault
    | none =>
      if (find? md5 all).isSome then .error (.cyclicChain top.name top.version)
      else .error (.unknownBase top.name top.version md5)
termination_by unvisited.length
decreasing_by exact length_without _h

/-- A definition and its bases, the oldest base first. -/
def chain (all : List LibraryDefinition) (definition : LibraryDefinition) :
    Except RegistryFault (List LibraryDefinition) :=
  (basesFrom all definition (without definition.md5 all) definition).map fun bases =>
    (definition :: bases).reverse

end LibraryDefinition

/-! ## 2. Libraries -/

/-- A library with its bases merged into it. -/
structure ResolvedLibrary where
  md5 : String
  kind : LibraryKind
  name : String
  version : String
  /-- The numbers of the routines. -/
  routines : NameTable UInt16
  /-- The names of routines with the code of another one, and the other name. -/
  same : NameTable String
  /-- The digests of the definitions that were merged, the oldest base first. -/
  chain : List String
  deriving DecidableEq, Repr

namespace ResolvedLibrary

/-- The library of a definition, given the chain of bases that ends in it. -/
def ofChain (definition : LibraryDefinition) (links : List LibraryDefinition) :
    ResolvedLibrary where
  md5 := definition.md5
  kind := definition.kind
  name := definition.name
  version := definition.version
  routines := links.foldl (fun table link => link.updateRoutines table) .empty
  same := links.foldl (fun table link => link.updateSame table) .empty
  chain := links.map (·.md5)

/-- The first name of a routine. -/
def routineName? (library : ResolvedLibrary) (number : UInt16) : Option String :=
  (library.routines.rows.find? (·.2 == number)).map (·.1)

end ResolvedLibrary

/-! ## 3. Registries -/

/-- Libraries by the digest of their file. -/
structure Registry where
  libraries : NameTable ResolvedLibrary
  deriving DecidableEq, Repr

namespace Registry

/-- Whether a name occurs twice. -/
def hasRepeated : List String → Bool
  | [] => false
  | name :: names => names.contains name || hasRepeated names

/-- The libraries of definitions, out of a list of all. -/
def resolveAll (all : List LibraryDefinition) :
    List LibraryDefinition → Except RegistryFault (List (String × ResolvedLibrary))
  | [] => .ok []
  | definition :: rest => do
      let links ← definition.chain all
      let libraries ← resolveAll all rest
      .ok ((definition.md5, .ofChain definition links) :: libraries)

/-- The registry of a list of definitions. Each base has to be in the list, and no chain of bases
    may come back to a definition. -/
def ofDefinitions (definitions : List LibraryDefinition) : Except Error Registry :=
  if hasRepeated (definitions.map (·.md5)) then .error (.badRegistry .duplicateLibrary)
  else
    match resolveAll definitions definitions with
    | .ok libraries => .ok ⟨NameTable.empty.insertAll libraries⟩
    | .error fault => .error (.badRegistry fault)

/-- The library with a digest. -/
def lookup (registry : Registry) (md5 : String) : Option ResolvedLibrary :=
  registry.libraries.get? md5

/-- The number of libraries. -/
def size (registry : Registry) : Nat :=
  registry.libraries.size

/-- The digests of all libraries in ascending order. -/
def md5s (registry : Registry) : List String :=
  registry.libraries.names

end Registry

end AmigaBinary
