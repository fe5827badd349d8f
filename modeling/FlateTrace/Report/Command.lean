import FlateTrace.Profile.Summary
import FlateTrace.Report.Chart
import FlateTrace.Zip.Archive

/-! # The command line

The command profiles files, one after the other: an archive entry by entry, any
other file as a zlib stream. A file that fails is reported and does not keep the
others from being profiled; what was printed for it before stays.
-/

namespace FlateTrace.Command

open Text Zip

/-- What the command was asked to do. -/
structure Options where
  json : Bool := false
  histogram : Bool := false
  files : List String := []
  deriving DecidableEq, Repr

/-- Add an argument to the options; arguments that start with two dashes must be
known flags. -/
def Options.add? (options : Options) (argument : String) : Option Options :=
  if argument = "--json" then some { options with json := true }
  else if argument = "--histogram" then some { options with histogram := true }
  else if argument.startsWith "--" then none
  else some { options with files := options.files ++ [argument] }

/-- The options that arguments stand for. At least one file must be given. -/
def Options.parse? (arguments : List String) : Option Options := do
  let options ← arguments.foldlM Options.add? {}
  if options.files.isEmpty then none else some options

/-- Why a file cannot be read. -/
inductive FileError where
  | notFound
  | isDirectory
  | notDirectory
  | other (message : String)
  deriving DecidableEq, Repr

/-- The text of a file error. -/
def FileError.message : FileError → String
  | .notFound => "No such file or directory (os error 2)"
  | .notDirectory => "Not a directory (os error 20)"
  | .isDirectory => "Is a directory (os error 21)"
  | .other message => message

/-- How the command is used. -/
def usage (program : String) : List String :=
  [s!"Usage: {program} [--json] [--histogram] <file>...",
    "Decodes zlib streams (or every entry of a zip archive) and reports how the",
    "compressed bits were spent: literals, back-references, and how much of the",
    "output each literal ended up producing.",
    "    --json       print each profile summary as JSON",
    "    --histogram  plot literal contributions across the output",
    "Set RUST_LOG=debug for per-block details.",
    ""]

/-- The line for a block. -/
def blockLine (index : Nat) (block : BlockRecord) : String :=
  s!"  block {index}: " ++ block.type.name ++ ", " ++ toString block.cost.toNat ++ " bits" ++
    if block.isFinal then " (final)" else ""

/-- The lines for a summary. -/
def summaryLines (name : String) (summary : Summary) : List String :=
  [paint .boldCyan name,
    s!"  {summary.deflatedSize} -> {summary.inflatedSize} bytes (" ++
      twoPlaces summary.compressionRatio ++ s!"x), {summary.blockCount} blocks",
    s!"  {summary.literalCount} literals, {summary.copyCount} back-references, " ++
      s!"heaviest literal produced {summary.maxLiteralWeight} bytes"] ++
    summary.blocks.toList.mapIdx blockLine

/-- The report about one profile. -/
def reportLines (options : Options) (name : String) (profile : Profile) : List String :=
  (if options.json then [profile.summary.toJson.indented]
    else summaryLines name profile.summary) ++
    if options.histogram then Chart.lines profile else []

/-- The report about a file: its lines, and the reason why it is not complete. -/
structure FileReport where
  lines : Array String := #[]
  failure : Option String := none
  deriving DecidableEq, Repr

/-- Go on with the report about an archive, unless an entry has failed before. -/
def FileReport.addEntry (options : Options) (file : String) (archive : Archive)
    (report : FileReport) (path : String) : FileReport :=
  if report.failure.isSome then report
  else
    match archive.profile path with
    | .error error => { report with failure := some error.message }
    | .ok profile =>
        { report with lines := report.lines ++ reportLines options (file ++ ":" ++ path) profile }

/-- The report about the contents of a file. -/
def contentsReport (options : Options) (file : String) (data : ByteArray) : FileReport :=
  if isArchive data then
    match Archive.ofBytes data with
    | .error error => { failure := some error.message }
    | .ok archive => archive.paths.foldl (FileReport.addEntry options file archive) {}
  else
    match Settings.profileZlib {} data with
    | .error error => { failure := some error.message }
    | .ok profile => { lines := (reportLines options file profile).toArray }

/-- The report about what was found when a file was read. -/
def fileReport (options : Options) (file : String) : Except FileError ByteArray → FileReport
  | .error error => { failure := some error.message }
  | .ok data => contentsReport options file data

/-- What the command leaves behind. -/
structure Outcome where
  exitCode : UInt8
  output : String
  errors : String
  deriving DecidableEq, Repr

/-- Lines as text, each with a line break behind it. -/
def textOfLines (lines : List String) : String :=
  String.join (lines.map (· ++ "\n"))

/-- The outcome when the arguments are of no use. -/
def usageOutcome (program : String) : Outcome where
  exitCode := 1
  output := textOfLines (usage program)
  errors := ""

/-- The line that reports the failure of a file. -/
def failureLine (file message : String) : String :=
  paint .red file ++ ": " ++ message

/-- The outcome of reports about some files. -/
def reportsOutcome (reports : List (String × FileReport)) : Outcome :=
  let failures := reports.filterMap fun (file, report) => report.failure.map (failureLine file)
  { exitCode := if failures.isEmpty then 0 else 2
    output := textOfLines (reports.flatMap fun (_, report) => report.lines.toList)
    errors := textOfLines failures }

/-- Run the command, given how files are read. -/
def run (program : String) (arguments : List String)
    (readFile : String → Except FileError ByteArray) : Outcome :=
  match Options.parse? arguments with
  | none => usageOutcome program
  | some options =>
      reportsOutcome (options.files.map fun file => (file, fileReport options file (readFile file)))

end FlateTrace.Command
