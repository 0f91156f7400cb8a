import PacketTree.Files.Glob
import PacketTree.Files.System

/-!
# Paths that a pattern stands for

A pattern is followed from a directory, name by name. A name that stands for itself is looked up; for
any other all names of the directory are tried in their order. Two stars try every directory below,
and each before what lies in it.

## The model

`Expansion.fill` goes on with patterns from a path, and `visit` looks at one name that a directory
holds. Every round uses up a pattern or lengthens the path, and no path of `Path.pathLimit` bytes can
be followed, so the number of rounds is bounded.
-/

namespace PacketTree

/-- What a pattern with slashes is made of. -/
structure PathPattern where
  /-- The pattern starts at the root. -/
  absolute : Bool
  /-- The patterns for the names. -/
  names : List Glob
  /-- Only directories are meant. -/
  directories : Bool
deriving DecidableEq, Repr

/-- Why a pattern cannot be followed: a directory cannot be listed. -/
structure ExpansionError where
  /-- The directory. -/
  path : String
  /-- Why it cannot be listed. -/
  cause : FileError
deriving DecidableEq, Repr

/-- The error in words. -/
def ExpansionError.message (e : ExpansionError) : String :=
  "attempting to read \x60" ++ e.path ++ "\x60 resulted in an error: " ++ e.cause.message

namespace PathPattern

/-- Pieces without the last one if that is empty. -/
def dropEmptyEnd (pieces : List String) : List String :=
  if pieces.getLast? = some "" then pieces.dropLast else pieces

/-- The pattern of a text. -/
def parse (text : String) : Except GlobError PathPattern := do
  let _ ← Glob.parse text
  let absolute := Path.isAbsolute text
  let pieces := dropEmptyEnd (Path.segments text)
  let names ← ((if absolute then pieces.drop 1 else pieces).mapM Glob.parse)
  return { absolute := absolute, names := names, directories := Path.isOpen text }

end PathPattern

namespace Expansion

variable {m : Type → Type} [Monad m]

/-- Paths in their order, or the first problem. -/
abbrev Paths (m : Type → Type) : Type := ExceptT ExpansionError m (List String)

/-- A name in a directory, as a path; the current directory is not written. -/
def entry (path name : String) : String := if Path.isHere path then name else Path.join path name

/-- The names in a directory in their order. -/
def sortedNames (fs : FileSystem m) (path : String) : ExceptT ExpansionError m (List String) := do
  match ← fs.list path with
  | .ok names => return names.mergeSort fun a b => decide (a ≤ b)
  | .error e => throw { path := path, cause := e }

/-- A path found by the last of the patterns, or those found from it on. -/
def found (below : List Glob → String → Paths m) (rest : List Glob) (path : String) : Paths m :=
  if rest.isEmpty then return [path] else below rest path

/-- The dots of a directory that a pattern stands for. They are tried only for a pattern that starts
with a dot. -/
def dots (g : Glob) : List String :=
  if g.tokens.head? = some (.char '.') then ["..", "."].filter g.accepts else []

/-- Tries a pattern on a name that a directory holds. -/
def tryName (below : List Glob → String → Paths m) (onlyDirectories directory : Bool) (path : String) :
    List Glob → Paths m
  | [] => return []
  | g :: rest =>
    if !((Path.fileName? path).any g.accepts) then return []
    else if !rest.isEmpty then below rest path
    else return if onlyDirectories && !directory then [] else [path]

/-- Looks at a name that a directory holds. -/
def visit (fs : FileSystem m) (below : List Glob → String → Paths m) (onlyDirectories : Bool)
    (g : Glob) (rest : List Glob) (path : String) : Paths m := do
  let directory ← fs.isDirectory path
  if !g.isRecursive then tryName below onlyDirectories directory path (g :: rest)
  else
    let rest := rest.dropWhile Glob.isRecursive
    let own ←
      if rest.isEmpty then pure (if directory then [path] else [])
      else tryName below onlyDirectories directory path rest
    let inside ← if directory then below (g :: rest) path else pure []
    return own ++ inside

/-- The paths that patterns stand for from a path on, in so many rounds. -/
def fill (fs : FileSystem m) (onlyDirectories : Bool) : Nat → List Glob → String → Paths m
  | 0, _, _ => return []
  | _, [], _ => return []
  | rounds + 1, g :: rest, path => do
    let below := fill fs onlyDirectories rounds
    let here ← fs.isDirectory path
    match g.literal? with
    | some name =>
      let next := entry path name
      let there ← if name = "." ∨ name = ".." then pure here else fs.holds next
      if !there then return []
      else if rest.isEmpty && onlyDirectories && !(← fs.isDirectory next) then return []
      else found below rest next
    | none =>
      if !here then return []
      else
        let names ← sortedNames fs path
        let special ← (dots g).mapM fun name => do
          let next := Path.join path name
          if rest.isEmpty && onlyDirectories && !(← fs.isDirectory next) then return []
          else found below rest next
        let children ← names.mapM fun name => visit fs below onlyDirectories g rest (entry path name)
        return special.flatten ++ children.flatten

end Expansion

/-- The paths that a pattern stands for. -/
def PathPattern.expand {m : Type → Type} [Monad m] (fs : FileSystem m) (p : PathPattern) :
    Expansion.Paths m :=
  Expansion.fill fs p.directories (p.names.length + Path.pathLimit) p.names
    (if p.absolute then "/" else ".")

end PacketTree
