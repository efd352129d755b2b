import AmigaBinary.Decrunch.HunkImage
import AmigaBinary.Decrunch.PowerPacker
import AmigaBinary.Decrunch.StoneCracker
import AmigaBinary.Md5

/-!
# Packed executables

A packed executable is a hunk file with the unpacking code and a payload. Only exact shapes are
recognised; any other file is left as it is.
-/

namespace AmigaBinary

namespace Packer

/-! ## 1. Shapes -/

/-- A recognised file: its packer, the table of distance widths if it has one, and the payload. -/
inductive Packed where
  | powerPacker (packer : Packer) (stub payload : Bytes)
  | stoneCracker (payload : Bytes)
  deriving DecidableEq, Repr

/-- The packer of a recognised file. -/
def Packed.packer : Packed → Packer
  | .powerPacker packer _ _ => packer
  | .stoneCracker _ => .stoneCracker

/-- The packer whose unpacking code has so many bytes. -/
def ofStubLength? : Nat → Option Packer
  | 632 => some .powerPacker
  | 548 => some .powerPackerShort
  | _ => none

/-- The offset of the table of distance widths in the unpacking code. -/
def tableOffset : Packer → Nat
  | .powerPacker => 0x26C
  | _ => 540

/-- The digest of the first unpacking code of StoneCracker. -/
def stoneCrackerStub : String := "769130d87b9517f4ba90889f2a392dd9"

/-- The digest of the start of the second one. -/
def stoneCrackerLoader : String := "cd6e1a62d3dfdc1a59d8a050a855b3ae"

/-- The length of the start of the second unpacking code, over which its digest is taken. -/
def loaderLength : Nat := 396

/-- The offset of the packed file in the hunk of the second unpacking code. -/
def payloadOffset : Nat := 392

/-- Whether two hunks are the unpacking code of StoneCracker. -/
def isStoneCracker (stub loader : Bytes) : Bool :=
  stub.length == 76 && loaderLength < loader.length
    && Md5.hexDigest stub == stoneCrackerStub
    && Md5.hexDigest (loader.take loaderLength) == stoneCrackerLoader

/-- Whether the length of the payload that the unpacking code declares is possible. -/
def declaresPayload (stub payload : Bytes) : Bool :=
  match Bytes.readWord32 stub 0x20 with
  | .ok declared => 4 ≤ declared.toNat && declared.toNat ≤ payload.length
  | .error _ => false

/-- The packed executable that a file is, if its shape is recognised. -/
def recognize? (file : HunkFile) : Option Packed :=
  match file.extent, file.hunks with
  | .complete, [.code stub, .finish, .data payload, .finish] =>
      match ofStubLength? stub.length with
      | some packer =>
          if declaresPayload stub payload then some (.powerPacker packer stub payload) else none
      | none => none
  | .complete, [.code stub, .code loader, .finish] =>
      if isStoneCracker stub loader then some (.stoneCracker (loader.drop payloadOffset)) else none
  | _, _ => none

/-- The packer of a file. -/
def detect? (file : HunkFile) : Option Packer :=
  (recognize? file).map Packed.packer

/-! ## 2. Unpacking -/

/-- The table of distance widths at an offset of the unpacking code. -/
def offsetTable (stub : Bytes) (offset : Nat) : Decrunch.PowerPacker.OffsetTable :=
  ⟨stub.getD offset 0, stub.getD (offset + 1) 0, stub.getD (offset + 2) 0, stub.getD (offset + 3) 0⟩

/-- The bytes of the program inside a packed executable. -/
def Packed.contents : Packed → Except Error Bytes
  | .powerPacker packer stub payload =>
      Decrunch.PowerPacker.unpack (offsetTable stub packer.tableOffset) payload
  | .stoneCracker payload =>
      (Decrunch.StoneCracker.unpack payload).bind Decrunch.HunkImage.toHunkBytes

end Packer

namespace HunkFile

/-- The program inside a packed executable; any other file is its own program. -/
def unpack (file : HunkFile) : Except Error HunkFile :=
  match Packer.recognize? file with
  | none => .ok file
  | some packed => do
      let bytes ← packed.contents
      (parse bytes).mapError (.during (.parsingUnpacked packed.packer))

/-- The program in the bytes of a hunk file, unpacked if it is packed. -/
def parseUnpacked (data : Bytes) : Except Error HunkFile :=
  (parse data).bind unpack

end HunkFile

end AmigaBinary
