import FlateTrace.Report.Command

/-! # The program

Reads the files that the arguments name, one after the other, and prints what the
command reports about each of them.
-/

namespace FlateTrace.Command

/-- Why the system could not read a file. -/
def FileError.ofSystem : IO.Error → FileError
  | .noFileOrDirectory .. => .notFound
  | .inappropriateType _ 20 _ => .notDirectory
  | .inappropriateType _ 21 _ => .isDirectory
  | .permissionDenied _ code details => .other s!"{details} (os error {code})"
  | error => .other (toString error)

/-- Read a file from disk. -/
def readFromDisk (file : String) : IO (Except FileError ByteArray) := do
  try
    let data ← IO.FS.readBinFile file
    pure (.ok data)
  catch error => pure (.error (.ofSystem error))

/-- Report about a file on disk, and say whether that failed. -/
def reportFromDisk (options : Options) (file : String) : IO Bool := do
  let data ← readFromDisk file
  let outcome := reportsOutcome [(file, fileReport options file data)]
  IO.print outcome.output
  IO.eprint outcome.errors
  pure (outcome.exitCode != 0)

end FlateTrace.Command

open FlateTrace.Command in
/-- Profile the files that are named on the command line. -/
def main (arguments : List String) : IO UInt32 := do
  match Options.parse? arguments with
  | none => do
      let outcome := usageOutcome "zprof"
      IO.print outcome.output
      pure outcome.exitCode.toUInt32
  | some options => do
      let failures ← options.files.mapM (reportFromDisk options)
      pure (if failures.any id then 2 else 0)
