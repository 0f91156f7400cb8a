/-!
# Errors of file operations

Why an operation on files or directories failed, with the text that the system has for it.
-/

namespace PacketTree

/-- Why an operation on files failed. -/
inductive FileError where
  /-- There is nothing of that name. -/
  | notFound
  /-- There is something of that name already. -/
  | exists
  /-- The name is that of a directory. -/
  | isDirectory
  /-- A part of the path that should be a directory is none. -/
  | notDirectory
  /-- The path, or a name in it, is too long. -/
  | nameTooLong
  /-- The file holds no text in UTF-8. -/
  | notText
  /-- The file ends too early. -/
  | tooShort
  /-- The system gives another reason. -/
  | other (text : String)
deriving DecidableEq, Repr

/-- The error in words. -/
def FileError.message : FileError → String
  | .notFound => "No such file or directory (os error 2)"
  | .exists => "File exists (os error 17)"
  | .isDirectory => "Is a directory (os error 21)"
  | .notDirectory => "Not a directory (os error 20)"
  | .nameTooLong => "File name too long (os error 36)"
  | .notText => "stream did not contain valid UTF-8"
  | .tooShort => "failed to fill whole buffer"
  | .other text => text

end PacketTree
