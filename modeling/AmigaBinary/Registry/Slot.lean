/-!
# Extension slots

The extensions that the professional release loads by itself have fixed slots.
-/

namespace AmigaBinary

/-- An extension and the slot that it is loaded into. -/
structure ExtensionSlot where
  name : String
  version : String
  slot : UInt8
  deriving DecidableEq, Repr

namespace ExtensionSlot

/-- The known extensions, by the digest of their file. -/
def table : List (String × ExtensionSlot) :=
  [("ab1d615bde71d06d53de098768e5384e", ⟨"Core", "ProV2", 0⟩),
   ("ddf2f65aaa9df85d642317e199105d53", ⟨"Music", "ProV2", 1⟩),
   ("57e035efd4d37cb5504bd7d619a99933", ⟨"Compact", "ProV2", 2⟩),
   ("7d3df35f6a37886c2d4c84542b9300e0", ⟨"Requester", "ProV2", 3⟩),
   ("241e45afbbad3871e5dad9135dacd1cb", ⟨"IOPorts", "ProV2", 6⟩),
   ("18ed1e8c39eb633bd26a5da129002a64", ⟨"OpalVision", "V1.1", 21⟩)]

/-- The extension with a digest. -/
def ofMd5? (md5 : String) : Option ExtensionSlot :=
  table.lookup md5

end ExtensionSlot

end AmigaBinary
