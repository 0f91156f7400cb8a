import PacketTree.CommandLine.Dissect
import PacketTree.CommandLine.Help

/-!
# The program

The command line over the files of the disk.
-/

namespace PacketTree.Disk

/-- The number of an error, which some operations give with a minus sign. -/
def errorNumber (code : UInt32) : UInt32 := if code < 0x80000000 then code else 0 - code

/-- The error of a number and a text that the system has for it. -/
def errorOf (code : UInt32) (text : String) : FileError :=
  match errorNumber code with
  | 2 => .notFound
  | 17 => .exists
  | 20 => .notDirectory
  | 21 => .isDirectory
  | 36 => .nameTooLong
  | code => .other (text ++ " (os error " ++ toString code ++ ")")

/-- The error of an operation on the disk. -/
def fileError : IO.Error → FileError
  | .noFileOrDirectory _ code text | .interrupted _ code text => errorOf code text
  | .alreadyExists _ code text | .invalidArgument _ code text | .permissionDenied _ code text
  | .resourceExhausted _ code text | .inappropriateType _ code text | .noSuchThing _ code text =>
    errorOf code text
  | .otherError code text | .resourceBusy code text | .resourceVanished code text
  | .unsupportedOperation code text | .hardwareFault code text
  | .unsatisfiedConstraints code text | .illegalOperation code text | .protocolError code text
  | .timeExpired code text => errorOf code text
  | .unexpectedEof => .tooShort
  | .userError text => .other text

/-- The outcome of an operation on the disk. -/
def outcome {α : Type} (act : IO α) : IO (Except FileError α) := do
  match ← act.toBaseIO with
  | .ok x => return .ok x
  | .error e => return .error (fileError e)

/-- The kind of what a path leads to. -/
def kind (path : String) : IO (Option FileKind) := do
  let found ← outcome do
    let data ← (← IO.FS.realPath path).metadata
    return match data.type with
      | .dir => FileKind.directory
      | .file => FileKind.file
      | _ => FileKind.special
  return found.toOption

/-- The names in a directory. -/
def names (path : String) : IO (List String) := do
  let entries ← (← IO.FS.realPath path).readDir
  return entries.toList.map (·.fileName)

/-- The operations on the disk. -/
def fileSystem : FileSystem IO where
  kind := kind
  read path := outcome do return (← IO.FS.readBinFile path).toList
  write path bytes := outcome (IO.FS.writeBinFile path ⟨bytes.toArray⟩)
  makeDirectory path := outcome (IO.FS.createDir path)
  list path := outcome (names path)
  resolve path := outcome do
    return (Path.segments (← IO.FS.realPath path).toString).filter (· ≠ "")

end PacketTree.Disk

open PacketTree CommandLine

/-- Runs the program. -/
def main (words : List String) : IO UInt32 := do
  match Arguments.parse words with
  | .error stop =>
    if stop.code = 0 then IO.print stop.text else IO.eprint stop.text
    return stop.code.toUInt32
  | .ok args =>
    if args.verbose then IO.eprintln ("dissecting " ++ args.input)
    let outcome ← Dissect.run Disk.fileSystem 1 args
    IO.print outcome.output
    IO.eprint outcome.errors
    return (outcome.code.getD 101).toUInt32
