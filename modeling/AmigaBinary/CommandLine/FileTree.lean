import AmigaBinary.Bytes

/-!
# Trees of files

A command works in a folder of a tree of files. A path is a row of names, read from that folder on
or, with a slash in front, from the root of the tree. A tree is given by its files: folders are the
places on the way to a file, the places above the working folder, and the root. Every tree has the
null device, which is always empty.
-/

namespace AmigaBinary.CommandLine

/-! ## 1. Faults -/

/-- Why a file cannot be read or written. -/
inductive FileFault where
  | missing
  | denied
  | notFolder
  | isFolder
  | nameTooLong
  | other (text : String)
  deriving DecidableEq, Repr

/-- The wording of a fault, with its number in the operating system. -/
def FileFault.message : FileFault → String
  | .missing => "No such file or directory (os error 2)"
  | .denied => "Permission denied (os error 13)"
  | .notFolder => "Not a directory (os error 20)"
  | .isFolder => "Is a directory (os error 21)"
  | .nameTooLong => "File name too long (os error 36)"
  | .other text => text

/-! ## 2. Places -/

/-- Where the way to a place starts. -/
inductive Origin where
  | root
  /-- So many levels above the working folder. -/
  | above (levels : Nat)
  deriving DecidableEq, Repr

/-- A place in a tree: the names on the way to it. -/
structure Place where
  origin : Origin
  names : List String
  deriving DecidableEq, Repr

/-- The folder above a place. The root is above itself. -/
def Place.parent (place : Place) : Place :=
  match place.names, place.origin with
  | [], .root => place
  | [], .above levels => ⟨.above (levels + 1), []⟩
  | names, origin => ⟨origin, names.dropLast⟩

/-- The place that a name stands for in a folder. -/
def Place.enter (place : Place) (name : String) : Place :=
  if name = "." then place
  else if name = ".." then place.parent
  else ⟨place.origin, place.names ++ [name]⟩

/-- Whether a place is somewhere below another one. -/
def Place.isBelow (place folder : Place) : Bool :=
  place.origin == folder.origin && folder.names.isPrefixOf place.names
    && place.names.length != folder.names.length

/-! ## 3. Paths -/

/-- A name that was read backwards; between two slashes in a row there is none. -/
def closeName : List Char → List String
  | [] => []
  | name => [String.ofList name.reverse]

/-- The names in a path; `name` is what of the next name was read already, backwards. -/
def namesFrom (name : List Char) : List Char → List String
  | [] => closeName name
  | c :: rest =>
    if c = '/' then closeName name ++ namesFrom [] rest else namesFrom (c :: name) rest

/-- The names in a path. -/
def namesIn (path : String) : List String :=
  namesFrom [] path.toList

/-- Where a path starts. -/
def originOf (path : String) : Place :=
  if path.toList.head? = some '/' then ⟨.root, []⟩ else ⟨.above 0, []⟩

/-- Whether a path ends in a slash, and so can name nothing but a folder. -/
def namesFolder (path : String) : Bool :=
  path.toList.getLast? == some '/'

/-! ## 4. Trees -/

/-- The files of a tree. -/
structure FileTree where
  files : List (Place × Bytes)
  deriving DecidableEq, Repr

namespace FileTree

/-- The place of the null device. -/
def nullDevice : Place :=
  ⟨.root, ["dev", "null"]⟩

/-- The tree with files at paths. -/
def ofList (files : List (String × Bytes)) : FileTree :=
  ⟨(nullDevice, []) ::
    files.map fun file => ((namesIn file.1).foldl Place.enter (originOf file.1), file.2)⟩

/-- The contents of the file at a place. -/
def contents? (tree : FileTree) (place : Place) : Option Bytes :=
  tree.files.lookup place

/-- Whether there is a folder at a place. -/
def isFolder (tree : FileTree) (place : Place) : Bool :=
  place.names.isEmpty || tree.files.any (·.1.isBelow place)

/-- The length in bytes up to which names are allowed. -/
def nameLimit : Nat := 255

/-- The length in bytes up to which paths are allowed. -/
def pathLimit : Nat := 4095

/-- The place that a name stands for at a place, which has to be a folder. -/
def enter (tree : FileTree) (place : Place) (name : String) : Except FileFault Place :=
  if !tree.isFolder place then
    .error (if (tree.contents? place).isSome then .notFolder else .missing)
  else if nameLimit < name.utf8ByteSize then .error .nameTooLong
  else .ok (place.enter name)

/-- The place at the end of a row of names. -/
def walk (tree : FileTree) (place : Place) : List String → Except FileFault Place
  | [] => .ok place
  | name :: names => do
      let place ← tree.enter place name
      tree.walk place names

/-- The place that a path stands for. -/
def resolve (tree : FileTree) (path : String) : Except FileFault Place :=
  if path = "" then .error .missing
  else if pathLimit < path.utf8ByteSize then .error .nameTooLong
  else tree.walk (originOf path) (namesIn path)

/-- The contents of the file at a path. -/
def read (tree : FileTree) (path : String) : Except FileFault Bytes := do
  let place ← tree.resolve path
  if tree.isFolder place then .error .isFolder
  else
    match tree.contents? place with
    | none => .error .missing
    | some contents => if namesFolder path then .error .notFolder else .ok contents

/-- The tree with new contents of the file at a path. -/
def write (tree : FileTree) (path : String) (contents : Bytes) : Except FileFault FileTree := do
  let place ← tree.resolve path
  if tree.isFolder place || namesFolder path then .error .isFolder
  else if place = nullDevice then .ok tree
  else .ok ⟨(place, contents) :: tree.files.filter (·.1 ≠ place)⟩

end FileTree

end AmigaBinary.CommandLine
