import PacketTree.Files.Error
import PacketTree.Files.Path

/-!
# File systems

What a program can do with files and directories, whatever keeps them: a disk, or a tree in memory.
-/

namespace PacketTree

/-- What a path can lead to. -/
inductive FileKind where
  /-- Bytes. -/
  | file
  /-- Names of files and directories. -/
  | directory
  /-- Anything else, as a device. -/
  | special
deriving DecidableEq, Repr

/-- The operations of a file system. All of them take paths. -/
structure FileSystem (m : Type → Type) where
  /-- What a path leads to, if it leads anywhere. -/
  kind : String → m (Option FileKind)
  /-- The bytes of a file. -/
  read : String → m (Except FileError (List UInt8))
  /-- Puts bytes into a file, which is made if there is none. -/
  write : String → List UInt8 → m (Except FileError Unit)
  /-- Makes a directory in one that exists. -/
  makeDirectory : String → m (Except FileError Unit)
  /-- The names in a directory, in any order. -/
  list : String → m (Except FileError (List String))
  /-- The names that lead from the root to where a path leads, without any dots. -/
  resolve : String → m (Except FileError (List String))

namespace FileSystem

variable {m : Type → Type} [Monad m]

/-- A path leads to a directory. -/
def isDirectory (fs : FileSystem m) (path : String) : m Bool :=
  return (← fs.kind path) = some .directory

/-- A path leads to a file. -/
def isFile (fs : FileSystem m) (path : String) : m Bool :=
  return (← fs.kind path) = some .file

/-- A path leads somewhere. -/
def holds (fs : FileSystem m) (path : String) : m Bool :=
  return (← fs.kind path).isSome

/-- Makes a directory unless there is one already. -/
def ensureDirectory (fs : FileSystem m) (path : String) : m (Except FileError Unit) := do
  match ← fs.makeDirectory path with
  | .ok _ => return .ok ()
  | .error e => return if ← fs.isDirectory path then .ok () else .error e

/-- Makes the first directory of a list, and before it the others if it needs them; each contains the
one before it. The empty path needs nothing. -/
def ensureFirst (fs : FileSystem m) : List String → m (Except FileError Unit)
  | [] => return .ok ()
  | path :: above => do
    if path = "" then return .ok ()
    match ← fs.ensureDirectory path with
    | .error .notFound =>
      match ← ensureFirst fs above with
      | .ok _ => fs.ensureDirectory path
      | .error e => return .error e
    | outcome => return outcome

/-- Makes a directory, and all directories that it lies in. -/
def ensureDirectories (fs : FileSystem m) (path : String) : m (Except FileError Unit) :=
  fs.ensureFirst (Path.ancestors path)

/-- The text in a file. -/
def readText (fs : FileSystem m) (path : String) : m (Except FileError String) := do
  return (← fs.read path).bind fun bytes =>
    match String.fromUTF8? ⟨bytes.toArray⟩ with
    | some text => .ok text
    | none => .error .notText

/-- Puts a text into a file. -/
def writeText (fs : FileSystem m) (path text : String) : m (Except FileError Unit) :=
  fs.write path text.toUTF8.toList

end FileSystem

end PacketTree
