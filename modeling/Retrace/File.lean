/-!
# Files that are read

Reading a file gives its text or tells why there is none.
-/

namespace Retrace

/-- Why a file has no text. -/
inductive FileFailure where
  | notFound
  | permissionDenied
  | notDirectory
  | isDirectory
  | notUtf8
  /-- Any other reason, in the words of the system. -/
  | other (reason : String)
deriving DecidableEq, Repr

def FileFailure.message : FileFailure → String
  | notFound => "No such file or directory (os error 2)"
  | permissionDenied => "Permission denied (os error 13)"
  | notDirectory => "Not a directory (os error 20)"
  | isDirectory => "Is a directory (os error 21)"
  | notUtf8 => "stream did not contain valid UTF-8"
  | other reason => reason

/-- A file that was asked for: its path as given, and its text. -/
structure File where
  path : String
  text : Except FileFailure String

end Retrace
