import AmigaBinary.Proofs.Decrunch.PowerPacker.Machine
import AmigaBinary.Proofs.Decrunch.StoneCracker.Machine

/-!
# What is unpacked was produced

The decrunchers of PowerPacker and StoneCracker check little of what packed data tells them. Even so
an output consists of bytes that were produced from the data, and nothing of what the memory held at
first shows in it (`unpack_fills`).
-/

namespace AmigaBinary.Decrunch

/-- **Whatever is unpacked, all steps are in bounds and come to an end.** The answer is an error, or
    an output of the size that the data declares. Each byte of it was put into its cell once, and
    each copied byte was read from a cell that had been written. It is the answer of the decoder
    that prepends to a list and rejects a copy whose offset is not below the number of the bytes
    produced so far, so it does not depend on what the memory held at first. -/
theorem unpack_fills :
    (∀ (initial : Nat → UInt8) (table : PowerPacker.OffsetTable) (packed : Bytes),
      Refines
        (fun m out => ∃ trailer, Bytes.readWord32 packed (packed.length - 4) = .ok trailer ∧
          m.Filled (trailer.toNat / 0x100) out)
        (PowerPacker.Machine.unpack initial table packed) (PowerPacker.unpack table packed) ∧
      PowerPacker.unpack table packed = PowerPacker.unpackListed table packed) ∧
    ∀ (initial : Nat → UInt8) (packed : Bytes),
      Refines
        (fun m out => ∃ size, Bytes.readWord32 packed 8 = .ok size ∧ m.Filled size.toNat out)
        (StoneCracker.Machine.unpack initial packed) (StoneCracker.unpack packed) ∧
      StoneCracker.unpack packed = StoneCracker.unpackListed packed := by
  constructor
  · intro initial table packed
    rw [← PowerPacker.unpackListed_eq]
    exact ⟨PowerPacker.Machine.unpack_refines initial table packed, rfl⟩
  · intro initial packed
    rw [← StoneCracker.unpackListed_eq]
    exact ⟨StoneCracker.Machine.unpack_refines initial packed, rfl⟩

end AmigaBinary.Decrunch
