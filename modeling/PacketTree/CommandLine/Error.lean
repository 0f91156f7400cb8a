import PacketTree.Analysis
import PacketTree.Files.Expansion

/-!
# Errors of the command line

Why a capture file is not taken apart, or its report not written, with a hint where one helps.
-/

namespace PacketTree.CommandLine

/-- Why a command fails. -/
inductive CommandError where
  /-- The input is no pattern. -/
  | badPattern (pattern reason : String)
  /-- No file fits the pattern. -/
  | noMatch (pattern : String)
  /-- Several files fit the pattern. -/
  | manyMatches (pattern : String) (paths : List String)
  /-- There is no such input. -/
  | inputMissing (path : String)
  /-- The input is a directory or a device. -/
  | inputNotFile (path : String)
  /-- The name of the input is not that of a capture file. -/
  | inputFormat (path : String)
  /-- The file of the settings cannot be used. -/
  | settingsFile (path : String) (e : SettingsError)
  /-- The settings with what the arguments say are out of range. -/
  | settings (e : SettingsError)
  /-- The place of the input cannot be found. -/
  | inputPlace (path : String) (e : FileError)
  /-- The path of the report names no file. -/
  | reportName (path : String)
  /-- The report would take the place of the input. -/
  | reportIsInput (path : String)
  /-- The capture file cannot be taken apart. -/
  | analysis (e : AnalysisError)
  /-- The directory of the report cannot be made. -/
  | reportDirectory (path : String) (e : FileError)
  /-- The report cannot be written. -/
  | reportFile (path : String) (e : FileError)
deriving DecidableEq, Repr

namespace CommandError

/-- Texts one after the other. -/
def joined (separator : String) (texts : List String) : String := separator.intercalate texts

/-- The number of paths that are told of those that fit a pattern. -/
def shownPaths : Nat := 3

/-- The paths that fit a pattern, the first of them by name. -/
def pathsText (paths : List String) : String :=
  joined ", " (paths.take shownPaths) ++ (if shownPaths < paths.length then ", ..." else "")

/-- The error in words. -/
def message : CommandError → String
  | badPattern pattern _ => "invalid input pattern '" ++ pattern ++ "'"
  | noMatch pattern => "no files match pattern '" ++ pattern ++ "'"
  | manyMatches pattern paths =>
    "multiple files match pattern '" ++ pattern ++ "' (" ++ toString paths.length ++
      " matches); matches: " ++ pathsText paths
  | inputMissing path => "input file not found: " ++ path
  | inputNotFile path => "input is not a file: " ++ path
  | inputFormat path => "unsupported input format '" ++ path ++ "'"
  | settingsFile path e => "failed to load config " ++ path ++ ": " ++ e.message
  | settings e => e.message
  | inputPlace path e => "Failed to resolve input path: " ++ path ++ ": " ++ e.message
  | reportName path => "invalid report path: " ++ path
  | reportIsInput path => "report path must differ from input: " ++ path
  | analysis e => joined ": " ("PCAP/PCAPNG dissection failed" :: e.message :: e.causes)
  | reportDirectory path e => "Failed to create output directory: " ++ path ++ ": " ++ e.message
  | reportFile path e => "Failed to write report: " ++ path ++ ": " ++ e.message

/-- What could help. -/
def hint? : CommandError → Option String
  | badPattern _ reason => some ("pattern error: " ++ reason)
  | noMatch _ => some "check the path or quote the pattern; expected .pcap or .pcapng"
  | manyMatches _ _ => some "pass a single capture file, or run once per file"
  | inputMissing _ | inputNotFile _ => some "use a .pcap or .pcapng file"
  | inputFormat _ => some "expected a .pcap or .pcapng file"
  | settingsFile _ _ => some "expected a JSON object with session settings"
  | settings _ => some "--confidence takes a value between 0.0 and 1.0"
  | reportName _ => some "choose a file name for the report"
  | reportIsInput _ => some "choose a different output path"
  | inputPlace _ _ | analysis _ | reportDirectory _ _ | reportFile _ _ => none

/-- The lines that tell of the error. -/
def text (e : CommandError) : String :=
  "error: " ++ e.message ++ "\n" ++
    (match e.hint? with
    | some hint => "hint: " ++ hint ++ "\n"
    | none => "")

end CommandError

end PacketTree.CommandLine
