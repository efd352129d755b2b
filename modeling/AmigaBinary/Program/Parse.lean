import AmigaBinary.Decrunch.Squash
import AmigaBinary.Packer.Unpack
import AmigaBinary.Program.Split

/-!
# Reading programs

A program is stored as a hunk file in which every code hunk is followed by an end mark. Each code
hunk may be squashed, and the whole file may be packed.
-/

namespace AmigaBinary.Program

/-- The contents of a code hunk, the one with the number `index`. -/
def codeBody (index : Nat) (body : Bytes) : Except Error Bytes :=
  if Decrunch.Squash.isSquashed body then
    (Decrunch.Squash.unsquash body).mapError (.during (.unsquashingHunk index))
  else .ok body

/-- The contents of pairs of a code hunk and an end mark, the first pair having the number
    `index`. -/
def codeBodiesFrom : Nat → List Hunk → Except Error (List Bytes)
  | _, [] => .ok []
  | index, .code body :: .finish :: rest => do
      let body ← codeBody index body
      let bodies ← codeBodiesFrom (index + 1) rest
      .ok (body :: bodies)
  | index, .code _ :: _ => .error (.badProgram (.missingEnd index))
  | index, _ => .error (.badProgram (.missingCode index))

/-- The contents of the code hunks of a file that holds nothing else. -/
def codeBodies (file : HunkFile) : Except Error (List Bytes) :=
  if file.isComplete then codeBodiesFrom 0 file.hunks
  else .error (.badProgram .partialFile)

/-- The program in a hunk file. -/
def parse (data : Bytes) : Except Error Program := do
  let file ← HunkFile.parseUnpacked data
  let bodies ← codeBodies file
  match bodies with
  | [] => .error (.badProgram .noHunks)
  | loaderHunk :: _ => do
      let loader ← Loader.identify loaderHunk
      ofHunks loader bodies

end AmigaBinary.Program
