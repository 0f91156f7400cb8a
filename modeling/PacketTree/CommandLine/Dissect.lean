import PacketTree.CommandLine.Arguments
import PacketTree.CommandLine.Error
import PacketTree.Report.Document
import PacketTree.Session.SettingsText

/-!
# Taking a capture file apart from the command line

The input is looked up and checked, then the settings, then where the report goes. Only then the
capture is taken apart, and the report is written last: a command that fails before or never ends
leaves all files as they were.

## The model

Every step is a function of the file system's operations, so the same steps run on a disk and on a
tree in memory.
-/

namespace PacketTree.CommandLine

variable {m : Type → Type} [Monad m]

/-- Why a command goes no further. -/
inductive Halt where
  /-- It fails. -/
  | failure (e : CommandError)
  /-- The analysis breaks down or never ends. -/
  | stuck
deriving DecidableEq, Repr

/-- Steps that can fail. -/
abbrev Steps (m : Type → Type) (α : Type) : Type := ExceptT Halt m α

/-- What a command leaves behind beside files. -/
structure Outcome where
  /-- The exit code, if the command comes to its end. -/
  code : Option Nat
  /-- What is written to the standard output. -/
  output : String
  /-- What is written to the standard error output. -/
  errors : String
deriving DecidableEq, Repr

namespace Dissect

/-- The exit code of a command that fails. -/
def failureCode : Nat := 2

/-- The outcome of an operation, told as an error of the command. -/
def orFail {α ε : Type} (tell : ε → CommandError) (outcome : Except ε α) : Steps m α :=
  match outcome with
  | .ok x => pure x
  | .error e => throw (.failure (tell e))

/-- The files that a pattern stands for. -/
def matchingFiles (fs : FileSystem m) (pattern : String) : Steps m (List String) := do
  let p ← orFail (fun e => .badPattern pattern e.message) (PathPattern.parse pattern)
  let paths ← orFail (fun e => .badPattern pattern e.message) (← (p.expand fs).run)
  let files ← paths.mapM fun path => do
    return if ← fs.isFile path then [path] else []
  return files.flatten

/-- The path of the input: the argument itself, or the one file that it stands for. -/
def resolveInput (fs : FileSystem m) (input : String) : Steps m String := do
  if !Glob.isPattern input then return input
  match ← matchingFiles fs input with
  | [] => throw (.failure (.noMatch input))
  | [path] => return path
  | paths => throw (.failure (.manyMatches input paths))

/-- The name is that of a capture file, by what follows its last dot in letters of either case. -/
def hasCaptureName (path : String) : Bool :=
  match (Path.extension? path).map fun name => String.ofList (name.toList.map Char.toLower) with
  | some "pcap" | some "pcapng" => true
  | _ => false

/-- Checks that there is a file with the name of a capture file. -/
def checkInput (fs : FileSystem m) (path : String) : Steps m Unit := do
  match ← fs.kind path with
  | none => throw (.failure (.inputMissing path))
  | some .file => if !hasCaptureName path then throw (.failure (.inputFormat path))
  | some _ => throw (.failure (.inputNotFile path))

/-- The settings in a file. -/
def settingsIn (fs : FileSystem m) (path : String) : Steps m Settings := do
  let text ← orFail (fun e => .settingsFile path (.file e)) (← fs.readText path)
  orFail (.settingsFile path) (Settings.load text)

/-- Settings with what the arguments say instead. -/
def override (args : Arguments) (s : Settings) : Settings :=
  { s with
    concurrency := args.concurrency.getD s.concurrency
    confidenceThreshold := args.confidence.getD s.confidenceThreshold
    midstream := args.midstream || s.midstream }

/-- The settings to work with. -/
def settingsFor (fs : FileSystem m) (args : Arguments) : Steps m Settings := do
  let s ← match args.config with
    | some path => settingsIn fs path
    | none => pure {}
  let s := override args s
  orFail .settings s.validate
  return s

/-- The path of the directory that a report is written to. -/
def directoryOf (report : String) : String :=
  match Path.parent? report with
  | none | some "" => "."
  | some directory => directory

/-- Checks that a report does not take the place of the input. A directory that does not exist yet
cannot hold the input. -/
def checkReport (fs : FileSystem m) (input report : String) : Steps m Unit := do
  let inputPlace ← orFail (.inputPlace input) (← fs.resolve input)
  match ← fs.resolve (directoryOf report) with
  | .error _ => return
  | .ok directory =>
    match Path.fileName? report with
    | none => throw (.failure (.reportName report))
    | some name => if directory ++ [name] = inputPlace then throw (.failure (.reportIsInput report))

/-- The report of a capture file. -/
def analyze (fs : FileSystem m) (machine : Nat) (settings : Settings) (path : String) :
    Steps m Report := do
  let file := (← fs.read path).map (ByteView.ofBytes .nothing)
  match Analysis.reportOfFile settings machine path file with
  | some outcome => orFail .analysis outcome
  | none => throw .stuck

/-- The text of a report. -/
def reportText (pretty : Bool) (r : Report) : String :=
  if pretty then r.toJson.indented else r.toJson.compact

/-- Writes a text to the path of a report, whose directory is made if there is none. -/
def writeReport (fs : FileSystem m) (path text : String) : Steps m Unit := do
  match Path.parent? path with
  | none | some "" => pure ()
  | some directory =>
    orFail (.reportDirectory directory) (← fs.ensureDirectories directory)
  orFail (.reportFile path) (← fs.writeText path text)

/-- The line that tells of a report that was written. -/
def doneText (r : Report) (path : String) : String :=
  "OK: " ++ toString r.frames.length ++ " frames dissected -> " ++ path ++ "\n"

/-- All steps, up to what is written to the two outputs. -/
def steps (fs : FileSystem m) (machine : Nat) (args : Arguments) : Steps m Outcome := do
  let input ← resolveInput fs args.input
  checkInput fs input
  let settings ← settingsFor fs args
  match args.report with
  | none => pure ()
  | some path => checkReport fs input path
  let report ← analyze fs machine settings input
  let text := reportText args.pretty report
  match args.report with
  | none => return { code := some 0, output := text, errors := "" }
  | some path =>
    writeReport fs path text
    return { code := some 0, output := "", errors := if args.quiet then "" else doneText report path }

/-- Runs the command. -/
def run (fs : FileSystem m) (machine : Nat) (args : Arguments) : m Outcome := do
  match ← (steps fs machine args).run with
  | .ok outcome => return outcome
  | .error (.failure e) => return { code := some failureCode, output := "", errors := e.text }
  | .error .stuck => return { code := none, output := "", errors := "" }

end Dissect

end PacketTree.CommandLine
