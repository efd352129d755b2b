import AmigaBinary.CommandLine.Run

/-!
# The command

The command line is performed on the files of the system, and what it leaves is then printed.
-/

namespace AmigaBinary.CommandLine

/-- Why an operation on a file failed. The number of a fault comes with either sign. -/
def faultOf (error : IO.Error) : FileFault :=
  match error with
  | .noFileOrDirectory .. => .missing
  | .permissionDenied .. => .denied
  | .inappropriateType _ code _ =>
      if code = 20 ∨ code = -20 then .notFolder
      else if code = 21 ∨ code = -21 then .isFolder
      else .other (toString error)
  | .invalidArgument _ code _ =>
      if code = 36 ∨ code = -36 then .nameTooLong else .other (toString error)
  | _ => .other (toString error)

/-- The contents of a file, or why it cannot be read. -/
def contentsOf (file : String) : IO (Except FileFault Bytes) := do
  try
    let contents ← IO.FS.readBinFile file
    return .ok contents.toList
  catch error => return .error (faultOf error)

/-- Writes a file, or tells why it cannot be written. -/
def writeFile (file : String) (contents : Bytes) : IO (Except FileFault Unit) := do
  try
    IO.FS.writeBinFile file ⟨contents.toArray⟩
    return .ok ()
  catch error => return .error (faultOf error)

/-- The files of the system. -/
def disk : Storage IO where
  read := contentsOf
  write := writeFile

/-- Runs a command line; the environment may name the standard format. -/
def execute (arguments : List String) : IO UInt32 := do
  let standard ← IO.getEnv "AMOS_INSPECT_FORMAT"
  let outcome ← perform disk standard arguments
  IO.print outcome.stdout
  IO.eprint outcome.stderr
  return UInt32.ofNat outcome.exitCode

end AmigaBinary.CommandLine

/-- The program. -/
def main (arguments : List String) : IO UInt32 :=
  AmigaBinary.CommandLine.execute arguments
