import AmigaBinary.Decrunch.HunkImage
import AmigaBinary.Decrunch.PowerPacker
import AmigaBinary.Decrunch.Squash
import AmigaBinary.Decrunch.StoneCracker
import AmigaBinary.FileFormat
import AmigaBinary.Hunk.Parse
import AmigaBinary.Hunk.Summary
import AmigaBinary.Hunk.Write
import AmigaBinary.Inspection
import AmigaBinary.Library.Parse
import AmigaBinary.Library.Relink
import AmigaBinary.M68k.Listing
import AmigaBinary.Main
import AmigaBinary.Packer.Unpack
import AmigaBinary.Program.Parse
import AmigaBinary.Registry.KnownLibraries
import AmigaBinary.Report.Style
import AmigaBinary.Routine.Link
import AmigaBinary.Proofs.Routine.Placement
import AmigaBinary.Proofs.Words
import AmigaBinary.Proofs.Routine.Instructions
import AmigaBinary.Proofs.Routine.References
import AmigaBinary.Proofs.Routine.Escape
import AmigaBinary.Proofs.Routine.Scanning
import AmigaBinary.Proofs.Decrunch.Bits
import AmigaBinary.Proofs.Decrunch.Squash.Token
import AmigaBinary.Proofs.Decrunch.Squash.Acceptance
import AmigaBinary.Proofs.Decrunch.Squash.Checksum
import AmigaBinary.Proofs.Decrunch.Squash.Size
import AmigaBinary.Proofs.Decrunch.Squash.RoundTrip
import AmigaBinary.Proofs.Decrunch.Squash.Register
import AmigaBinary.Proofs.Decrunch.Squash.Produced
import AmigaBinary.Proofs.Decrunch.PowerPacker.RoundTrip
import AmigaBinary.Proofs.Decrunch.StoneCracker.Code
import AmigaBinary.Proofs.Decrunch.StoneCracker.Accumulator
import AmigaBinary.Proofs.Decrunch.StoneCracker.Operation
import AmigaBinary.Proofs.Decrunch.StoneCracker.RoundTrip
import AmigaBinary.Proofs.Cursor
import AmigaBinary.Proofs.Hunk.Blocks
import AmigaBinary.Proofs.Hunk.Layout
import AmigaBinary.Proofs.Hunk.RoundTrip
import AmigaBinary.Proofs.Packer.Unpacking
import AmigaBinary.Proofs.M68k.Reading
import AmigaBinary.Proofs.M68k.Slots
import AmigaBinary.Proofs.M68k.Classification
import AmigaBinary.Proofs.M68k.Decoding
import AmigaBinary.Proofs.M68k.Locality
import AmigaBinary.Proofs.M68k.Listing
import AmigaBinary.Proofs.Library.TokenTable
import AmigaBinary.Proofs.Library.RoundTrip
import AmigaBinary.Proofs.Routine.Trimming
import AmigaBinary.Proofs.Routine.Loading
import AmigaBinary.Proofs.Inspection
import AmigaBinary.Proofs.Text.Separation
import AmigaBinary.Proofs.M68k.RegisterLists
import AmigaBinary.Proofs.M68k.Notation
import AmigaBinary.Proofs.M68k.Disassembly
import AmigaBinary.Proofs.Library.CodeBlocks
import AmigaBinary.Proofs.Routine.Analysis
import AmigaBinary.Proofs.Routine.Patterns
import AmigaBinary.Proofs.Routine.Tiling
import AmigaBinary.Proofs.Program.CodeHunks
import AmigaBinary.Proofs.Hunk.Range
import AmigaBinary.Proofs.Hunk.Summary
import AmigaBinary.Proofs.Library.Sections
import AmigaBinary.Proofs.Library.TokenSection
import AmigaBinary.Proofs.Routine.Offsets
import AmigaBinary.Proofs.Routine.Linkable
import AmigaBinary.Proofs.Routine.Extension
import AmigaBinary.Proofs.Decrunch.Squash.Capacity
import AmigaBinary.Proofs.Decrunch.HunkImage
import AmigaBinary.Proofs.Program.Splitting
import AmigaBinary.Proofs.Decrunch.Filling
import AmigaBinary.Proofs.Program.Relocations
import AmigaBinary.Proofs.Registry.Flattening
import AmigaBinary.Proofs.Registry.Renaming
import AmigaBinary.Proofs.Registry.Aliases
import AmigaBinary.Proofs.CommandLine.Effects
