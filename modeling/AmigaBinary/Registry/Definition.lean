import AmigaBinary.Registry.NameTable

/-!
# Definitions of libraries

A known library is identified by the digest of its file. Its definition lists the routines by name,
either all of them or, where it extends the definition of an earlier version, what changed.
-/

namespace AmigaBinary

/-! ## 1. Definitions -/

/-- The generation of the language that a library is for. -/
inductive LibraryKind where
  /-- The first releases. -/
  | creator
  /-- The professional release. -/
  | pro
  deriving DecidableEq, Repr

/-- The name of a generation in records. -/
def LibraryKind.identifier : LibraryKind → String
  | .creator => "creator"
  | .pro => "pro"

/-- A definition of a library. -/
structure LibraryDefinition where
  md5 : String
  kind : LibraryKind
  name : String
  version : String
  /-- The digest of the definition that this one extends. -/
  base : Option String
  /-- The routines of the base that are gone. -/
  removed : List String
  /-- The routines of the base with a new name: the old name and the new one. -/
  renamed : List (String × String)
  /-- The routines with the code of another one: the alias and the other name. -/
  same : List (String × String)
  /-- The routines that are new or have a new number. -/
  routines : List (String × UInt16)
  deriving DecidableEq, Repr

namespace LibraryDefinition

/-- A definition of all routines of a library. -/
def whole (md5 : String) (kind : LibraryKind) (name version : String)
    (routines : List (String × UInt16)) : LibraryDefinition where
  md5 := md5
  kind := kind
  name := name
  version := version
  base := none
  removed := []
  renamed := []
  same := []
  routines := routines

/-- A definition as an extension of another one. -/
def extending (definition earlier : LibraryDefinition) : LibraryDefinition :=
  { definition with base := some earlier.md5 }

/-! ## 2. What a definition changes -/

/-- A table with the value of the old name under the new one. -/
def rename {α : Type} (table : NameTable α) (old new : String) : NameTable α :=
  match table.get? old with
  | some value => (table.erase old).insert new value
  | none => table

/-- The routines of a library, given those of its base. Names go first, then the others get their
    new names one by one, and last the routines of the definition itself are put in. -/
def updateRoutines (definition : LibraryDefinition) (routines : NameTable UInt16) :
    NameTable UInt16 :=
  let kept := definition.removed.foldl NameTable.erase routines
  let renamed := definition.renamed.foldl (fun table pair => rename table pair.1 pair.2) kept
  renamed.insertAll definition.routines

/-- The aliases of a library, given those of its base. -/
def updateSame (definition : LibraryDefinition) (same : NameTable String) : NameTable String :=
  same.insertAll definition.same

end LibraryDefinition

end AmigaBinary
