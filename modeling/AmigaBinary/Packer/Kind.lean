/-!
# Kinds of packers

A packed executable is recognised by the unpacking code in front of its payload.
-/

namespace AmigaBinary

/-- A packer whose unpacking code is recognised. -/
inductive Packer where
  | powerPacker
  /-- PowerPacker with a shorter unpacking code. -/
  | powerPackerShort
  | stoneCracker
  deriving DecidableEq, Repr

namespace Packer

/-- The name of a packer in texts. -/
def title : Packer → String
  | .powerPacker => "PowerPacker"
  | .powerPackerShort => "PowerPacker (short stub)"
  | .stoneCracker => "StoneCracker 4.04"

/-- The name of a packer in records. -/
def identifier : Packer → String
  | .powerPacker => "power_packer"
  | .powerPackerShort => "power_packer_short"
  | .stoneCracker => "stone_cracker"

end Packer

end AmigaBinary
